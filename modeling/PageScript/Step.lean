import PageScript.ScriptError

/-!
# Steps with a state

A step reads and changes a state and may fail. What it did before it failed stays done.
-/
namespace PageScript

abbrev Step (σ : Type) := ExceptT ScriptError (StateM σ)

namespace Step

variable {σ α β : Type} {m : Step σ α} {s : σ} {post : α → σ → Prop} {fail : ScriptError → σ → Prop}

/-- From `s` the step ends in a result and a state that satisfy `post`, or in an error and a state
that satisfy `fail`. -/
def Ensures (m : Step σ α) (s : σ) (post : α → σ → Prop) (fail : ScriptError → σ → Prop) : Prop :=
  match (m.run s).1 with
  | .ok a => post a (m.run s).2
  | .error e => fail e (m.run s).2

theorem run_bind (m : Step σ β) (f : β → Step σ α) (s : σ) :
    (m >>= f).run s = match m.run s with
      | (.ok b, s') => (f b).run s'
      | (.error e, s') => (.error e, s') := by
  change (match m.run s with | (a, s') => ExceptT.bindCont f a s') = _
  rcases m.run s with ⟨_ | b, s'⟩ <;> rfl

theorem run_bind_ok {m : Step σ β} {f : β → Step σ α} {b : β} {s' : σ}
    (h : m.run s = (.ok b, s')) : (m >>= f).run s = (f b).run s' := by
  rw [run_bind, h]

theorem run_bind_error {m : Step σ β} {f : β → Step σ α} {e : ScriptError} {s' : σ}
    (h : m.run s = (.error e, s')) : (m >>= f).run s = (.error e, s') := by
  rw [run_bind, h]

theorem Ensures.ok {a : α} {s' : σ} (h : Ensures m s post fail) (hm : m.run s = (.ok a, s')) :
    post a s' := by
  rwa [Ensures, hm] at h

theorem Ensures.error {e : ScriptError} {s' : σ} (h : Ensures m s post fail)
    (hm : m.run s = (.error e, s')) : fail e s' := by
  rwa [Ensures, hm] at h

theorem Ensures.mono {post' : α → σ → Prop} {fail' : ScriptError → σ → Prop}
    (h : Ensures m s post fail) (hp : ∀ a s', post a s' → post' a s')
    (hf : ∀ e s', fail e s' → fail' e s') : Ensures m s post' fail' := by
  unfold Ensures at h ⊢
  cases hm : (m.run s).1 with
  | ok a => rw [hm] at h; exact hp a _ h
  | error e => rw [hm] at h; exact hf e _ h

/-- What holds of the state however the step ends. -/
theorem Ensures.state {p : σ → Prop} (h : Ensures m s (fun _ => p) fun _ => p) : p (m.run s).2 := by
  unfold Ensures at h
  cases hm : (m.run s).1 <;> rw [hm] at h <;> exact h

theorem Ensures.and {post' : α → σ → Prop} {fail' : ScriptError → σ → Prop}
    (h : Ensures m s post fail) (h' : Ensures m s post' fail') :
    Ensures m s (fun a s' => post a s' ∧ post' a s') fun e s' => fail e s' ∧ fail' e s' := by
  unfold Ensures at h h' ⊢
  cases hm : (m.run s).1 with
  | ok a => rw [hm] at h h'; exact ⟨h, h'⟩
  | error e => rw [hm] at h h'; exact ⟨h, h'⟩

@[simp] theorem ensures_pure {a : α} : Ensures (pure a) s post fail ↔ post a s := Iff.rfl

@[simp] theorem ensures_throw {e : ScriptError} :
    Ensures (throw e : Step σ α) s post fail ↔ fail e s := Iff.rfl

@[simp] theorem ensures_get {post : σ → σ → Prop} :
    Ensures (get : Step σ σ) s post fail ↔ post s s := Iff.rfl

@[simp] theorem ensures_modify {f : σ → σ} {post : PUnit → σ → Prop} :
    Ensures (modify f : Step σ PUnit) s post fail ↔ post ⟨⟩ (f s) := Iff.rfl

theorem ensures_ofExcept {x : Except ScriptError α} :
    Ensures (MonadExcept.ofExcept x : Step σ α) s post fail ↔
      (∀ a, x = .ok a → post a s) ∧ ∀ e, x = .error e → fail e s := by
  rcases x with e | a
  · exact ⟨fun h => ⟨fun _ => nofun, fun _ he => Except.error.inj he ▸ h⟩, fun h => h.2 e rfl⟩
  · exact ⟨fun h => ⟨fun _ ha => Except.ok.inj ha ▸ h, fun _ => nofun⟩, fun h => h.1 a rfl⟩

/-- A step after another starts where that one ended. -/
@[simp] theorem ensures_bind {m : Step σ β} {f : β → Step σ α} :
    Ensures (m >>= f) s post fail ↔ Ensures m s (fun b s' => Ensures (f b) s' post fail) fail := by
  rw [Ensures, Ensures, run_bind]
  rcases m.run s with ⟨_ | b, s'⟩ <;> rfl

@[simp] theorem ensures_map {m : Step σ β} {f : β → α} :
    Ensures (f <$> m) s post fail ↔ Ensures m s (fun b s' => post (f b) s') fail := by
  rw [map_eq_pure_bind, ensures_bind]
  rfl

/-- However it ends, the step leads from every state to a related one. -/
def Keeps (R : σ → σ → Prop) (m : Step σ α) : Prop :=
  ∀ s, Ensures m s (fun _ s' => R s s') (fun _ s' => R s s')

namespace Keeps

variable {R : σ → σ → Prop}

theorem pure [Std.Refl R] {a : α} : Keeps R (Pure.pure a) := fun s => Std.Refl.refl s

theorem throw [Std.Refl R] {e : ScriptError} : Keeps R (MonadExcept.throw e : Step σ α) :=
  fun s => Std.Refl.refl s

theorem get [Std.Refl R] : Keeps R (MonadState.get : Step σ σ) := fun s => Std.Refl.refl s

theorem ofExcept [Std.Refl R] {x : Except ScriptError α} :
    Keeps R (MonadExcept.ofExcept x : Step σ α) :=
  fun s => ensures_ofExcept.mpr ⟨fun _ _ => Std.Refl.refl s, fun _ _ => Std.Refl.refl s⟩

theorem mono {R' : σ → σ → Prop} (h : Keeps R m) (hR : ∀ s s', R s s' → R' s s') : Keeps R' m :=
  fun s => (h s).mono (fun _ => hR s) fun _ => hR s

theorem bind [Trans R R R] {m : Step σ β} {f : β → Step σ α} (hm : Keeps R m)
    (hf : ∀ b, Keeps R (f b)) : Keeps R (m >>= f) := fun s =>
  ensures_bind.mpr <| (hm s).mono
    (fun b s' h => (hf b s').mono (fun _ _ h' => Trans.trans h h') (fun _ _ h' => Trans.trans h h'))
    fun _ _ h => h

theorem map [Std.Refl R] [Trans R R R] {m : Step σ β} {f : β → α} (hm : Keeps R m) :
    Keeps R (f <$> m) := by
  rw [map_eq_pure_bind]
  exact hm.bind fun _ => Keeps.pure

end Keeps

end Step

end PageScript
