import PageScript.Proofs.Run
import PageScript.Proofs.WrittenNames

/-!
# What a script has declared

The tables of a converter hold what the statements converted so far declare, and each handle that it
keeps was granted for something they declare under the same name.
-/
namespace PageScript

open Step Converter

variable {φ ω : Type}

/-- The statement declares a name for a role. -/
inductive Statement.Declares (name : String) : Role → Statement → Prop where
  | resource {r : Resource} (names : r.name = name) :
      Declares name r.kind.role (.declaration (.resource r))
  | pattern {p : Pattern} : Declares name .pattern (.declaration (.pattern name p))

@[simp] theorem Statement.declares_resource {r : Resource} {name : String} {role : Role} :
    (declaration (.resource r)).Declares name role ↔ r.name = name ∧ r.kind.role = role := by
  constructor
  · rintro ⟨names⟩
    exact ⟨names, rfl⟩
  · rintro ⟨names, rfl⟩
    exact .resource names

@[simp] theorem Statement.declares_pattern {x : String} {p : Pattern} {name : String}
    {role : Role} :
    (declaration (.pattern x p)).Declares name role ↔ x = name ∧ .pattern = role := by
  constructor
  · rintro ⟨⟩
    exact ⟨rfl, rfl⟩
  · rintro ⟨rfl, rfl⟩
    exact .pattern

instance (name : String) (role : Role) : (t : Statement) → Decidable (t.Declares name role)
  | .declaration (.resource _) => decidable_of_iff _ Statement.declares_resource.symm
  | .declaration (.pattern ..) => decidable_of_iff _ Statement.declares_pattern.symm
  | .declaration (.variable ..) | .declaration (.color ..) | .graphics _ | .page _ | .endPage =>
    isFalse nofun

def Role.DeclaredIn (role : Role) (done : List Statement) (name : String) : Prop :=
  ∃ t ∈ done, t.Declares name role

instance (role : Role) (done : List Statement) (name : String) :
    Decidable (role.DeclaredIn done name) :=
  inferInstanceAs (Decidable (∃ t ∈ done, t.Declares name role))

theorem Statement.Declares.role_eq {t : Statement} {name : String} {role role' : Role}
    (h : t.Declares name role) (h' : t.Declares name role') : role = role' := by
  cases h <;> cases h' <;> rfl

theorem Declaration.New.notMem {d : Declaration} {kinds : Table ValueKind} {names : List String}
    {name : String} {role : Role} (new : d.New kinds names)
    (h : (Statement.declaration d).Declares name role) :
    name ∉ names ∧ name ∈ d.addName names := by
  cases h with
  | resource names => subst names; exact ⟨new, List.mem_cons_self⟩
  | pattern => exact ⟨new, List.mem_cons_self⟩

namespace Converter

variable {c c₁ c' : Recorder φ ω} {done : List Statement} {names : List String}

/-- The converter knows what has been declared: it is in its tables, with the handles that were
granted for it, and under each name there is one thing at most. -/
structure Knows (c : Recorder φ ω) (done : List Statement) (names : List String) : Prop where
  traced : c.Traced
  resources : ∀ name r, c.resources.find? name = some r ↔
    .declaration (.resource r) ∈ done ∧ r.name = name
  patterns : ∀ name p, c.patterns.find? name = some p ↔ .declaration (.pattern name p) ∈ done
  named : ∀ name role, c.Holds name role → name ∈ names
  apart : ∀ name role role', c.Holds name role → c.Holds name role' → role = role'

theorem knows_fresh (overrides : Overrides) (world : ω) :
    (fresh overrides world : Recorder φ ω).Knows [] [] := by
  have empty (name : String) (role : Role) :
      ¬ (fresh overrides world : Recorder φ ω).Holds name role := by
    cases role <;> simp [Holds, fresh]
  exact ⟨traced_fresh overrides world, by simp [fresh], by simp [fresh],
    fun _ _ h => absurd h (empty _ _), fun _ _ _ h => absurd h (empty _ _)⟩

theorem Knows.holds_iff (hc : c.Knows done names) {name : String} {role : Role} :
    c.Holds name role ↔ role.DeclaredIn done name := by
  constructor
  · intro h
    cases role with
    | font | image =>
      obtain ⟨r, hr, hk⟩ := h
      obtain ⟨hm, hn⟩ := (hc.resources _ _).mp hr
      exact ⟨_, hm, by simp [hn, hk, ResourceKind.role]⟩
    | pattern =>
      obtain ⟨p, hp⟩ := h
      exact ⟨_, (hc.patterns _ _).mp hp, .pattern⟩
  · rintro ⟨t, hm, @⟨r, hn⟩ | @⟨p⟩⟩
    · have hr := (hc.resources name r).mpr ⟨hm, hn⟩
      cases hk : r.kind <;> exact ⟨r, hr, hk⟩
    · exact ⟨p, (hc.patterns name p).mpr hm⟩

theorem Knows.counted (hc : c.Knows done names) (n : Nat) :
    ({ c with report.statements := n } : Recorder φ ω).Knows done names :=
  ⟨hc.traced.of_world rfl rfl rfl rfl rfl, hc.resources, hc.patterns, hc.named, hc.apart⟩

/-- A statement that is no declaration adds to what has been granted at most. -/
theorem Knows.undeclared {t : Statement} (hc : c.Knows done names)
    (hr : c'.resources = c.resources) (hp : c'.patterns = c.patterns) (ht : c'.Traced)
    (plain : ∀ d, t ≠ .declaration d) : c'.Knows (done ++ [t]) names := by
  have holds {name : String} {role : Role} (h : c'.Holds name role) : c.Holds name role := by
    cases role <;> simpa [Holds, hr, hp] using h
  refine ⟨ht, fun name r => ?_, fun name p => ?_, fun name role h => hc.named _ _ (holds h),
    fun name role role' h h' => hc.apart _ _ _ (holds h) (holds h')⟩
  · simp [hr, hc.resources, (plain _).symm]
  · simp [hp, hc.patterns, (plain _).symm]

/-- The tables have been added one declaration. -/
structure Adds (c c' : Recorder φ ω) (d : Declaration) : Prop where
  resources : ∀ name r, c'.resources.find? name = some r ↔
    c.resources.find? name = some r ∨ d = .resource r ∧ r.name = name
  patterns : ∀ name p, c'.patterns.find? name = some p ↔
    c.patterns.find? name = some p ∨ d = .pattern name p

theorem Adds.holds_iff {d : Declaration} (h : c.Adds c' d) {name : String} {role : Role} :
    c'.Holds name role ↔ c.Holds name role ∨ (Statement.declaration d).Declares name role := by
  constructor
  · intro hc
    cases role with
    | font | image =>
      obtain ⟨r, hr, hk⟩ := hc
      rcases (h.resources name r).mp hr with hr | ⟨rfl, hn⟩
      · exact .inl ⟨r, hr, hk⟩
      · exact .inr (by simp [hn, hk, ResourceKind.role])
    | pattern =>
      obtain ⟨p, hp⟩ := hc
      rcases (h.patterns name p).mp hp with hp | rfl
      · exact .inl ⟨p, hp⟩
      · exact .inr .pattern
  · rintro (hc | @⟨r, hn⟩ | @⟨p⟩)
    · cases role with
      | font | image => exact hc.imp fun r hr => ⟨(h.resources name r).mpr (.inl hr.1), hr.2⟩
      | pattern => exact hc.imp fun p hp => (h.patterns name p).mpr (.inl hp)
    · have hr := (h.resources name r).mpr (.inr ⟨rfl, hn⟩)
      cases hk : r.kind <;> exact ⟨r, hr, hk⟩
    · exact ⟨p, (h.patterns name p).mpr (.inr rfl)⟩

theorem Adds.traced {d : Declaration} (h : c.Adds c' d) (hc : c.Traced)
    (hw : c'.world = c.world) (hh : c'.handles = c.handles) (hf : c'.fonts = c.fonts) :
    c'.Traced := by
  have he : c'.events = c.events := congrArg (·.2.toList) hw
  refine ⟨fun name r hr => ?_, ?_, ?_, ?_⟩
  · exact ((h.resources name r).mp hr).elim (hc.names name r) And.right
  · rw [hf]
    exact fun name f hn => h.holds_iff.mpr (.inl (hc.fonts name f hn))
  · rw [hh, he]
    exact hc.handles
  · rw [he]
    exact fun e hm role name handle hg => (hc.grants e hm role name handle hg).mono
      (fun x r hr => (h.resources x r).mpr (.inl hr)) fun x p hp => (h.patterns x p).mpr (.inl hp)

/-- A new declaration adds to what is known, under a name that held nothing before. -/
theorem Knows.declaration {d : Declaration} {kinds : Table ValueKind} (hc : c.Knows done names)
    (new : d.New kinds names) (h : c.Adds c' d) (ht : c'.Traced) :
    c'.Knows (done ++ [.declaration d]) (d.addName names) := by
  have apart {name : String} {role role' : Role} (h : c.Holds name role)
      (h' : (Statement.declaration d).Declares name role') : False :=
    (new.notMem h').1 (hc.named _ _ h)
  refine ⟨ht, fun name r => ?_, fun name p => ?_, fun name role hn => ?_,
    fun name role role' hn hn' => ?_⟩
  · rw [h.resources, hc.resources, List.mem_append, or_and_right]
    simp [eq_comm]
  · rw [h.patterns, hc.patterns, List.mem_append]
    simp [eq_comm]
  · rcases h.holds_iff.mp hn with hn | hn
    · have hm := hc.named _ _ hn
      cases d <;> first | exact hm | exact List.mem_cons_of_mem _ hm
    · exact (new.notMem hn).2
  · rcases h.holds_iff.mp hn with hn | hn <;> rcases h.holds_iff.mp hn' with hn' | hn'
    · exact hc.apart _ _ _ hn hn'
    · exact (apart hn hn').elim
    · exact (apart hn' hn).elim
    · exact hn.role_eq hn'

/-- The converter has come to a scope behind some statements, with an output so far, and knows what
they declare. -/
structure Ready (c : Recorder φ ω) (done : List Statement) (s : Scope) : Prop where
  follows : c.Follows s
  shows : c.Shows c.output
  knows : c.Knows done s.names

theorem Ready.closed {s : Scope} (h : c.Ready done s) :
    pendingOperands c.calls = [] := (Output.operands_replay h.shows).symm

end Converter

namespace Conversion

variable {env : Environment φ ω} {c c' : Recorder φ ω} {done : List Statement}
  {s s' : Scope}

theorem knows_declare {d : Declaration} (new : d.New s.kinds s.names)
    (hc : c.Knows done s.names) :
    (declare d).Ensures c
      (fun _ c' => c'.Knows (done ++ [.declaration d]) (d.addName s.names)) fun _ _ => True := by
  have known {c' : Recorder φ ω} (hw : c'.world = c.world) (hh : c'.handles = c.handles)
      (hf : c'.fonts = c.fonts) (h : c.Adds c' d) :
      c'.Knows (done ++ [.declaration d]) (d.addName s.names) :=
    hc.declaration new h (h.traced hc.traced hw hh hf)
  cases d with
  | «variable» x kind v =>
    simp only [declare, ensures_bind, ensures_get, ensures_ofExcept, ensures_modify]
    exact ⟨fun w _ => known rfl rfl rfl ⟨by simp, by simp⟩, fun _ _ => trivial⟩
  | resource r =>
    refine ensures_modify.mpr (known rfl rfl rfl ⟨fun name r' => ?_, by simp⟩)
    have missing (h : c.resources.find? r.name = some r') : False :=
      new (hc.named r.name r'.kind.role (by cases hk : r'.kind <;> exact ⟨r', h, hk⟩))
    by_cases hn : name = r.name
    · subst hn
      simp only [Table.find?_insert, if_true, or_iff_right missing]
      constructor
      · rintro ⟨⟩
        exact ⟨rfl, rfl⟩
      · rintro ⟨h, -⟩
        cases h
        rfl
    · simp only [Table.find?_insert, if_neg hn]
      refine (or_iff_left ?_).symm
      rintro ⟨h, rfl⟩
      cases h
      exact hn rfl
  | color name color => exact ensures_modify.mpr (known rfl rfl rfl ⟨by simp, by simp⟩)
  | pattern x p =>
    refine ensures_modify.mpr (known rfl rfl rfl ⟨by simp, fun name p' => ?_⟩)
    have missing (h : c.patterns.find? x = some p') : False := new (hc.named x .pattern ⟨p', h⟩)
    by_cases hn : name = x
    · subst hn
      simp [or_iff_right missing]
    · simp [hn, Ne.symm hn]

variable [FontMetrics φ Float32]

/-- What the converter knows keeps up with the statements of a script. -/
theorem knows_statement {t : Statement} (h : s.Leads t s') (hf : c.Follows s)
    (hc : c.Knows done s.names) :
    (statement env.recorded t).Ensures c (fun _ c' => c'.Knows (done ++ [t]) s'.names)
      fun _ _ => True := by
  refine ensures_bind.mpr (ensures_modify.mpr ?_)
  generalize hc₀ : ({ c with report.statements := c.report.statements + 1 } : Recorder φ ω) = c₀
  have hf₀ : c₀.Follows s := by rw [← hc₀]; exact ⟨hf.context, hf.bound⟩
  have hk₀ : c₀.Knows done s.names := by rw [← hc₀]; exact hc.counted _
  clear hc₀
  have announced {c' : Recorder φ ω} {e : Event φ} (w : ω) (hr : c'.resources = c₀.resources)
      (hp : c'.patterns = c₀.patterns) (hh : c'.handles = c₀.handles) (hf : c'.fonts = c₀.fonts)
      (he : c'.events = c₀.events ++ [e]) (hg : e.grant? = none) : c'.Traced := by
    refine hk₀.traced.of_events hr hp hh ?_ he (by simpa using hg)
    rw [hf]
    exact hk₀.traced.fonts
  cases h with
  | declaration new => exact knows_declare new hk₀
  | @graphics o next accepted resolved =>
    have hoperands (operands : List Value)
        (hsub : Value.substituteItems c₀.bindings o.operands = .ok operands) :=
      accepted_substitute resolved hf₀ hsub
    refine (ensures_operation hoperands (hf₀.context ▸ accepted)).mono ?_ fun _ _ _ => trivial
    intro _ c' hp
    have hwhole (c₁ : Recorder φ ω) (operands : List Value) (ks : List Call)
        (h : ∃ full, Expansion c₁ o.operator operands full ∧ ks = full ++ c₀.context.closing next) :
        ks = [] ∨ ∃ full, Expansion c₁ o.operator operands full ∧
          ks <+: full ++ c₀.context.closing next := by
      obtain ⟨full, hx, rfl⟩ := h
      exact .inr ⟨full, hx, List.prefix_refl _⟩
    obtain ⟨_, c₁, -, ht, -, -, -, ks, full, hs, hk, hfull⟩ :=
      hp.names (List.prefix_refl _) hwhole hoperands hk₀.traced
    have hc' : c'.Traced := ht.sent hs fun k hm => hfull.silent k (hk.subset hm)
    exact hk₀.undeclared (by rw [hp.same]) (by rw [hp.same]) hc' fun d h => by cases h
  | @page size level =>
    refine ensures_bind.mpr (ensures_modify.mpr (ensures_call env (fun _ w => ?_) fun _ _ => trivial))
    exact hk₀.undeclared rfl rfl (announced w rfl rfl rfl rfl (events_record ..) rfl)
      fun d h => by cases h
  | endPage level =>
    simp only [move, ensures_bind, ensures_get, ensures_ofExcept, ensures_modify]
    refine ⟨fun next _ => ensures_call env (fun _ w => ?_) fun _ _ => trivial,
      fun _ _ => trivial⟩
    exact hk₀.undeclared rfl rfl (announced w rfl rfl rfl rfl (events_record ..) rfl)
      fun d h => by cases h

theorem ready_of_converted {overrides : Overrides} {world : ω} (h : Scope.Legal {} done s)
    (converted : (done.forM (statement env.recorded)).run (fresh overrides world) = (.ok (), c)) :
    c.Ready done s := by
  have hstep (done : List Statement) (s : Scope) (t : Statement) (s' : Scope) (c : Recorder φ ω)
      (hc : c.Ready done s) (ht : s.Leads t s') : (statement env.recorded t).Ensures c
        (fun _ c' => c'.Ready (done ++ [t]) s') fun _ _ => True := by
    refine ((ensures_statement ht hc.follows hc.shows).and
      (knows_statement ht hc.follows hc.knows)).mono ?_ fun _ _ _ => trivial
    rintro _ c' ⟨⟨hf, hs⟩, hk⟩
    exact ⟨hf, hs, hk⟩
  have hfresh : (fresh overrides world : Recorder φ ω).Ready [] {} :=
    ⟨follows_fresh overrides world, rfl, knows_fresh overrides world⟩
  exact (ensures_forM hstep [] h hfresh).ok converted

end Conversion

end PageScript
