import PageScript.Conversion.Substitute

/-!
# Variables inside values

Where variables stand in a value, and which of them are left when the variables are replaced.
-/
namespace PageScript

namespace Dictionary

theorem mem_foldl_put {entries : List (String × Value)} {d : Dictionary} {e : String × Value}
    (h : e ∈ (entries.foldl (fun d e => put d e.1 e.2) d).entries) :
    e ∈ d.entries ∨ ∃ key, (key, e.2) ∈ entries := by
  induction entries generalizing d with
  | nil => exact .inl h
  | cons first rest ih =>
    rcases ih h with h | ⟨key, h⟩
    · rcases Table.mem_insert h with rfl | h
      · exact .inr ⟨first.1, List.mem_cons_self⟩
      · exact .inl h
    · exact .inr ⟨key, List.mem_cons_of_mem _ h⟩

/-- The values of a dictionary are among those that it was made of. -/
theorem mem_ofEntries {entries : List (String × Value)} {e : String × Value}
    (h : e ∈ (ofEntries entries).entries) : ∃ key, (key, e.2) ∈ entries :=
  (mem_foldl_put h).resolve_left List.not_mem_nil

end Dictionary

namespace Value

/-- A variable stands in a value, at any depth. -/
inductive Mentions (x : String) (kind : Option ValueKind) : Value → Prop where
  | self : Mentions x kind (.variable x kind)
  | item {items : List Value} {v : Value} (mem : v ∈ items) (inside : Mentions x kind v) :
      Mentions x kind (.array items)
  | entry {entries : Dictionary} {e : String × Value} (mem : e ∈ entries.entries)
      (inside : Mentions x kind e.2) : Mentions x kind (.dictionary entries)

/-- No variable stands in the value. -/
def Concrete (v : Value) : Prop := ∀ x kind, ¬ v.Mentions x kind

section Mentions

variable {x y : String} {kind kind' : Option ValueKind}

@[simp] theorem mentions_variable :
    (Value.variable y kind').Mentions x kind ↔ y = x ∧ kind' = kind := by
  constructor
  · rintro ⟨⟩
    exact ⟨rfl, rfl⟩
  · rintro ⟨rfl, rfl⟩
    exact .self

@[simp] theorem mentions_array {items : List Value} :
    (array items).Mentions x kind ↔ ∃ v ∈ items, v.Mentions x kind := by
  constructor
  · rintro (_ | ⟨mem, inside⟩)
    exact ⟨_, mem, inside⟩
  · rintro ⟨v, mem, inside⟩
    exact .item mem inside

@[simp] theorem mentions_dictionary {entries : Dictionary} :
    (dictionary entries).Mentions x kind ↔ ∃ e ∈ entries.entries, e.2.Mentions x kind := by
  constructor
  · rintro (_ | _ | ⟨mem, inside⟩)
    exact ⟨_, mem, inside⟩
  · rintro ⟨e, mem, inside⟩
    exact .entry mem inside

@[simp] theorem concrete_number (n : Float32) : (number n).Concrete := nofun

@[simp] theorem concrete_string (bytes : List UInt8) : (string bytes).Concrete := nofun

@[simp] theorem concrete_boolean (b : Bool) : (boolean b).Concrete := nofun

@[simp] theorem concrete_name (text : String) : (name text).Concrete := nofun

@[simp] theorem concrete_keyword (text : String) : (keyword text).Concrete := nofun

end Mentions

section Substitute

variable {bindings : Table Value} {v w : Value} {e : ScriptError}

theorem substituteItems_cons_eq_ok {rest ws : List Value} :
    substituteItems bindings (v :: rest) = .ok ws ↔
      ∃ w ws', v.substitute bindings = .ok w ∧ substituteItems bindings rest = .ok ws' ∧
        ws = w :: ws' := by
  rw [substituteItems]
  cases v.substitute bindings <;> cases substituteItems bindings rest <;>
    simp [bind, Except.bind, pure, Except.pure, eq_comm]

theorem substituteItems_cons_eq_error {rest : List Value} :
    substituteItems bindings (v :: rest) = .error e ↔
      v.substitute bindings = .error e ∨
        (∃ w, v.substitute bindings = .ok w) ∧ substituteItems bindings rest = .error e := by
  rw [substituteItems]
  cases v.substitute bindings <;> cases substituteItems bindings rest <;>
    simp [bind, Except.bind, pure, Except.pure]

theorem substituteEntries_cons_eq_ok {low : Option String} {key : String}
    {above : ∀ k ∈ low, k < key} {rest : Entries Value (some key)} {es : List (String × Value)} :
    substituteEntries bindings (.cons key v above rest) = .ok es ↔
      ∃ w es', v.substitute bindings = .ok w ∧ substituteEntries bindings rest = .ok es' ∧
        es = (key, w) :: es' := by
  rw [substituteEntries]
  cases v.substitute bindings <;> cases substituteEntries bindings rest <;>
    simp [bind, Except.bind, pure, Except.pure, eq_comm]

theorem substituteEntries_cons_eq_error {low : Option String} {key : String}
    {above : ∀ k ∈ low, k < key} {rest : Entries Value (some key)} :
    substituteEntries bindings (.cons key v above rest) = .error e ↔
      v.substitute bindings = .error e ∨
        (∃ w, v.substitute bindings = .ok w) ∧ substituteEntries bindings rest = .error e := by
  rw [substituteEntries]
  cases v.substitute bindings <;> cases substituteEntries bindings rest <;>
    simp [bind, Except.bind, pure, Except.pure]

theorem substitute_array_eq_error {items : List Value} :
    (array items).substitute bindings = .error e ↔ substituteItems bindings items = .error e := by
  rw [substitute]
  cases substituteItems bindings items <;> simp [Functor.map, Except.map]

theorem substitute_dictionary_eq_error {d : Dictionary} :
    (dictionary d).substitute bindings = .error e ↔
      substituteEntries bindings d.sorted = .error e := by
  rw [substitute]
  cases substituteEntries bindings d.sorted <;> simp [Functor.map, Except.map]

theorem substitute_array_eq_ok {items : List Value} :
    (array items).substitute bindings = .ok w ↔
      ∃ ws, substituteItems bindings items = .ok ws ∧ w = array ws := by
  rw [substitute]
  cases substituteItems bindings items <;> simp [Functor.map, Except.map, eq_comm]

theorem substitute_dictionary_eq_ok {d : Dictionary} :
    (dictionary d).substitute bindings = .ok w ↔
      ∃ es, substituteEntries bindings d.sorted = .ok es ∧
        w = dictionary (Dictionary.ofEntries es) := by
  rw [substitute]
  cases substituteEntries bindings d.sorted <;> simp [Functor.map, Except.map, eq_comm]

variable {y : String} {kind : Option ValueKind}

/-- The variables left in a value stand in the values put for others. -/
def Leaves (bindings : Table Value) (v : Value) (y : String) (kind : Option ValueKind) : Prop :=
  ∃ x declared u, v.Mentions x declared ∧ bindings.find? x = some u ∧ u.Mentions y kind

mutual

theorem mentions_substitute (v : Value) {w : Value} (h : v.substitute bindings = .ok w)
    (hw : w.Mentions y kind) : v.Leaves bindings y kind := by
  cases v with
  | «variable» x declared =>
    rw [substitute] at h
    split at h
    · next u hu =>
      cases h
      exact ⟨x, declared, w, .self, hu, hw⟩
    · cases h
  | array items =>
    obtain ⟨ws, hws, rfl⟩ := substitute_array_eq_ok.mp h
    obtain ⟨w, mem, inside⟩ := mentions_array.mp hw
    obtain ⟨v, hv, x, declared, u, hm, hu⟩ := mentions_substituteItems items hws mem inside
    exact ⟨x, declared, u, .item hv hm, hu⟩
  | dictionary d =>
    obtain ⟨es, hes, rfl⟩ := substitute_dictionary_eq_ok.mp h
    obtain ⟨e, mem, inside⟩ := mentions_dictionary.mp hw
    obtain ⟨key, mem⟩ := Dictionary.mem_ofEntries mem
    obtain ⟨v, hv, x, declared, u, hm, hu⟩ :=
      mentions_substituteEntries d.sorted hes mem inside
    exact ⟨x, declared, u, .entry hv hm, hu⟩
  | number | string | boolean | name | keyword =>
    cases h
    cases hw
termination_by structural v

theorem mentions_substituteItems (items : List Value) {ws : List Value}
    (h : substituteItems bindings items = .ok ws) {w : Value} (mem : w ∈ ws)
    (hw : w.Mentions y kind) : ∃ v ∈ items, v.Leaves bindings y kind := by
  cases items with
  | nil =>
    cases h
    cases mem
  | cons v rest =>
    obtain ⟨w', ws', hv, hrest, rfl⟩ := substituteItems_cons_eq_ok.mp h
    rcases List.mem_cons.mp mem with rfl | mem
    · exact ⟨v, List.mem_cons_self, mentions_substitute v hv hw⟩
    · obtain ⟨v', hv', hl⟩ := mentions_substituteItems rest hrest mem hw
      exact ⟨v', List.mem_cons_of_mem _ hv', hl⟩
termination_by structural items

theorem mentions_substituteEntries {low : Option String} (entries : Entries Value low)
    {es : List (String × Value)} (h : substituteEntries bindings entries = .ok es)
    {e : String × Value} (mem : e ∈ es) (hw : e.2.Mentions y kind) :
    ∃ e' ∈ entries.toList, e'.2.Leaves bindings y kind := by
  cases entries with
  | nil =>
    cases h
    cases mem
  | cons key v _ rest =>
    obtain ⟨w', es', hv, hrest, rfl⟩ := substituteEntries_cons_eq_ok.mp h
    rcases List.mem_cons.mp mem with rfl | mem
    · exact ⟨(key, v), List.mem_cons_self, mentions_substitute v hv hw⟩
    · obtain ⟨e'', he'', hl⟩ := mentions_substituteEntries rest hrest mem hw
      exact ⟨e'', List.mem_cons_of_mem _ he'', hl⟩
termination_by structural entries

end

/-- The error names a variable of the value that has no value. -/
def Lacks (bindings : Table Value) (v : Value) (e : ScriptError) : Prop :=
  ∃ x declared, v.Mentions x declared ∧ bindings.find? x = none ∧ e = .undeclaredVariable x

mutual

theorem lacks_of_substitute (v : Value) {e : ScriptError}
    (h : v.substitute bindings = .error e) : v.Lacks bindings e := by
  cases v with
  | «variable» x declared =>
    rw [substitute] at h
    split at h
    · cases h
    · next hx =>
      cases h
      exact ⟨x, declared, .self, hx, rfl⟩
  | array items =>
    obtain ⟨v, hv, x, declared, hm, hx⟩ :=
      lacks_of_substituteItems items (substitute_array_eq_error.mp h)
    exact ⟨x, declared, .item hv hm, hx⟩
  | dictionary d =>
    obtain ⟨v, hv, x, declared, hm, hx⟩ :=
      lacks_of_substituteEntries d.sorted (substitute_dictionary_eq_error.mp h)
    exact ⟨x, declared, .entry hv hm, hx⟩
  | number | string | boolean | name | keyword => cases h
termination_by structural v

theorem lacks_of_substituteItems (items : List Value) {e : ScriptError}
    (h : substituteItems bindings items = .error e) : ∃ v ∈ items, v.Lacks bindings e := by
  cases items with
  | nil => cases h
  | cons v rest =>
    rcases substituteItems_cons_eq_error.mp h with h | ⟨-, h⟩
    · exact ⟨v, List.mem_cons_self, lacks_of_substitute v h⟩
    · obtain ⟨v', hv', hl⟩ := lacks_of_substituteItems rest h
      exact ⟨v', List.mem_cons_of_mem _ hv', hl⟩
termination_by structural items

theorem lacks_of_substituteEntries {low : Option String} (entries : Entries Value low)
    {e : ScriptError} (h : substituteEntries bindings entries = .error e) :
    ∃ e' ∈ entries.toList, e'.2.Lacks bindings e := by
  cases entries with
  | nil => cases h
  | cons key v _ rest =>
    rcases substituteEntries_cons_eq_error.mp h with h | ⟨-, h⟩
    · exact ⟨(key, v), List.mem_cons_self, lacks_of_substitute v h⟩
    · obtain ⟨e'', he'', hl⟩ := lacks_of_substituteEntries rest h
      exact ⟨e'', List.mem_cons_of_mem _ he'', hl⟩
termination_by structural entries

end

end Substitute

end Value

end PageScript
