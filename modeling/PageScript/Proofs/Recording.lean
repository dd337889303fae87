import PageScript.Conversion.State

/-!
# Recorded conversions

The calls that a conversion makes, kept in order with their answers.
-/
namespace PageScript

open Step

variable {φ ω α : Type}

/-- The call has not failed. -/
def Event.Answered (e : Event φ) : Prop := e.answer.isOk

instance (e : Event φ) : Decidable e.Answered :=
  inferInstanceAs (Decidable (e.answer.isOk = true))

/-- Answers every call, with the font and with one handle for each kind of thing. -/
def Environment.willing (font : φ) : Environment φ Unit where
  answer w k := (match k with
    | .fontHandle _ => .ok "/F"
    | .imageHandle _ => .ok "/I"
    | .patternHandle .. => .ok "/P"
    | .loadFont _ => .ok font
    | .beginPage _ | .endPage | .beginPath | .endPath | .beginText | .endText | .operand _
    | .operator _ | .flush => .ok (), w)

/-- A converter that keeps the calls it makes. -/
abbrev Recorder (φ ω : Type) := Converter φ (ω × Array (Event φ))

namespace Converter

def fresh (overrides : Overrides) (world : ω) : Recorder φ ω where
  world := (world, #[])
  overrides := overrides

def events (c : Recorder φ ω) : List (Event φ) := c.world.2.toList

def calls (c : Recorder φ ω) : List Call := c.events.map Event.call

def record (c : Recorder φ ω) (w : ω) (e : Event φ) : Recorder φ ω :=
  { c with world := (w, c.world.2.push e) }

@[simp] theorem events_record (c : Recorder φ ω) (w : ω) (e : Event φ) :
    (c.record w e).events = c.events ++ [e] := by
  simp [record, events]

@[simp] theorem calls_record (c : Recorder φ ω) (w : ω) (e : Event φ) :
    (c.record w e).calls = c.calls ++ [e.call] := by
  simp [calls]

/-- The last call has failed with the error. -/
def Failed (c : Recorder φ ω) (e : ScriptError) : Prop :=
  ∃ before k, c.events = before ++ [⟨k, .error e⟩]

theorem Failed.record (c : Recorder φ ω) (w : ω) (k : Call) (e : ScriptError) :
    (c.record w ⟨k, .error e⟩).Failed e :=
  ⟨c.events, k, events_record c w _⟩

/-- Some calls have been made, and nothing else has happened. -/
def Sent (c : Recorder φ ω) (ks : List Call) (c' : Recorder φ ω) : Prop :=
  c' = { c with world := c'.world } ∧ ∃ es, c'.events = c.events ++ es ∧ es.map Event.call = ks

namespace Sent

variable {c c₁ c₂ : Recorder φ ω} {ks ks' : List Call}

theorem refl (c : Recorder φ ω) : c.Sent [] c := ⟨rfl, [], by simp, rfl⟩

theorem record (c : Recorder φ ω) (w : ω) (e : Event φ) : c.Sent [e.call] (c.record w e) :=
  ⟨rfl, [e], events_record c w e, rfl⟩

theorem trans (h : c.Sent ks c₁) (h' : c₁.Sent ks' c₂) : c.Sent (ks ++ ks') c₂ := by
  obtain ⟨he, es, hs, rfl⟩ := h
  obtain ⟨he', es', hs', rfl⟩ := h'
  exact ⟨by rw [he', he], es ++ es', by rw [hs', hs, List.append_assoc], List.map_append⟩

theorem calls_eq (h : c.Sent ks c₁) : c₁.calls = c.calls ++ ks := by
  obtain ⟨-, es, hs, rfl⟩ := h
  rw [calls, hs, List.map_append, calls]

end Sent

end Converter

namespace Conversion

variable (env : Environment φ ω)

theorem ensures_call {k : Call} {c : Recorder φ ω} {post : k.Answer φ → Recorder φ ω → Prop}
    {fail : ScriptError → Recorder φ ω → Prop}
    (hp : ∀ a w, post a (c.record w ⟨k, .ok a⟩))
    (hf : ∀ e w, fail e (c.record w ⟨k, .error e⟩)) :
    (call env.recorded k).Ensures c post fail := by
  have hrun : (call env.recorded k).run c = ((env.answer c.world.1 k).1,
      c.record (env.answer c.world.1 k).2 ⟨k, (env.answer c.world.1 k).1⟩) := rfl
  rw [Ensures, hrun]
  rcases env.answer c.world.1 k with ⟨e | a, w⟩
  · exact hf e w
  · exact hp a w

/-- Makes a call whatever it is answered with. -/
def send (k : Call) : Conversion φ ω Unit := discard (call env k)

def sendAll (ks : List Call) : Conversion φ ω Unit := ks.forM (send env)

theorem sendAll_append (ks ks' : List Call) :
    sendAll env (ks ++ ks') = (do sendAll env ks; sendAll env ks') := by
  simp [sendAll]

theorem sendAll_cons (k : Call) (ks : List Call) :
    sendAll env (k :: ks) = (do send env k; sendAll env ks) := rfl

theorem ensures_send (k : Call) (c : Recorder φ ω) :
    (send env.recorded k).Ensures c (fun _ c' => c.Sent [k] c')
      fun e c' => c'.Failed e ∧ c.Sent [k] c' :=
  ensures_map.mpr <| ensures_call env (fun _ w => .record c w _) fun e w =>
    ⟨.record c w k e, .record c w _⟩

/-- Either all calls are made, or those up to one that fails. -/
theorem ensures_sendAll (ks : List Call) (c : Recorder φ ω) :
    (sendAll env.recorded ks).Ensures c (fun _ c' => c.Sent ks c')
      fun e c' => c'.Failed e ∧ ∃ ks', ks' ≠ [] ∧ ks' <+: ks ∧ c.Sent ks' c' := by
  induction ks generalizing c with
  | nil => exact .refl c
  | cons k ks ih =>
    rw [sendAll_cons, ensures_bind]
    refine (ensures_send env k c).mono (fun _ c₁ h₁ => ?_) fun e c' h => ?_
    · refine (ih c₁).mono (fun _ c' h => h₁.trans h) ?_
      rintro e c' ⟨he, ks', -, hp, hs⟩
      exact ⟨he, k :: ks', List.cons_ne_nil k ks', by simpa using hp, h₁.trans hs⟩
    · exact ⟨h.1, [k], List.cons_ne_nil k [], by simp, h.2⟩

end Conversion

end PageScript
