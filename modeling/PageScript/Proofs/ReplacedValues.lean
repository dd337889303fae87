import PageScript.Proofs.Bindings
import PageScript.Proofs.PrintedValues
import PageScript.Proofs.TableKeys

/-!
# Values with their variables replaced

Replacing the variables of a value keeps everything else in its place, at any depth, as long as no
key of a dictionary begins with a slash. Such a key loses its slash once more.
-/
namespace PageScript

namespace Dictionary

variable {key k : String} {entries : List (String × Value)}

theorem bareKey_slash (key : String) : bareKey ("/" ++ key) = key := by
  simp [bareKey, Vocabulary.bare?]

theorem bareKey_of_bare (h : ∀ bare, key ≠ "/" ++ bare) : bareKey key = key := by
  unfold bareKey Vocabulary.bare?
  split
  · next rest hkey =>
    refine absurd ?_ (h (String.ofList rest))
    rw [← String.ofList_toList (s := key), hkey]
    exact @String.ofList_append ['/'] rest
  · rfl

/-- Only keys with two slashes or more keep one. -/
theorem eq_slash_of_bareKey {bare : String} (h : bareKey key = "/" ++ bare) :
    key = "/" ++ ("/" ++ bare) := by
  by_cases hkey : ∃ k, key = "/" ++ k
  · obtain ⟨k, rfl⟩ := hkey
    rw [← h, bareKey_slash]
  · rw [bareKey_of_bare fun k hk => hkey ⟨k, hk⟩] at h
    exact absurd ⟨bare, h⟩ hkey

theorem mem_keys_foldl_put {d : Dictionary} :
    k ∈ (entries.foldl (fun d e => put d e.1 e.2) d).keys ↔
      k ∈ d.keys ∨ ∃ key ∈ entries.map Prod.fst, bareKey key = k := by
  induction entries generalizing d with
  | nil => simp
  | cons e entries ih =>
    rw [List.foldl_cons, ih, put, Table.mem_keys_insert]
    simp only [List.map_cons, List.exists_mem_cons_iff, eq_comm (a := k), or_assoc, or_left_comm]

/-- The keys of a dictionary are the bare keys of what it was made of. -/
theorem mem_keys_ofEntries :
    k ∈ (ofEntries entries).keys ↔ ∃ key ∈ entries.map Prod.fst, bareKey key = k :=
  mem_keys_foldl_put.trans (or_iff_right List.not_mem_nil)

/-- A dictionary is made of its entries again, unless a key begins with a slash. -/
theorem entries_ofEntries_of_bare (hasc : (entries.map Prod.fst).Pairwise (· < ·))
    (hbare : ∀ key, "/" ++ key ∉ entries.map Prod.fst) :
    (ofEntries entries).entries = entries := by
  have hput : ∀ (d : Dictionary), ∀ e ∈ entries, put d e.1 e.2 = d.insert e.1 e.2 := by
    intro d e he
    have hkey := bareKey_of_bare fun bare h =>
      hbare bare (h ▸ List.mem_map_of_mem (f := Prod.fst) he)
    rw [put, hkey]
  rw [ofEntries, List.foldl_ext _ _ _ hput]
  exact Table.entries_ofList hasc

/-- No key is lost only if none begins with a slash: else one with more slashes would be needed for
each that has one, without end. -/
theorem bare_of_keys_subset (h : entries.map Prod.fst ⊆ (ofEntries entries).keys) (key : String) :
    "/" ++ key ∉ entries.map Prod.fst := by
  intro hkey
  have hlonger (n : Nat) : ∃ bare, "/" ++ bare ∈ entries.map Prod.fst ∧ n ≤ bare.length := by
    induction n with
    | zero => exact ⟨key, hkey, Nat.zero_le _⟩
    | succ n ih =>
      obtain ⟨bare, hmem, hn⟩ := ih
      obtain ⟨source, hsource, hbare⟩ := mem_keys_ofEntries.mp (h hmem)
      rw [eq_slash_of_bareKey hbare] at hsource
      refine ⟨"/" ++ bare, hsource, ?_⟩
      rw [String.length_append]
      exact Nat.succ_le_of_lt (Nat.lt_of_le_of_lt hn (Nat.lt_add_of_pos_left (by decide)))
  obtain ⟨bare, hmem, hlong⟩ := hlonger (((entries.map Prod.fst).map String.length).sum)
  have hshort := List.le_sum_of_mem (List.mem_map_of_mem (f := String.length) hmem)
  rw [String.length_append] at hshort
  have hslash : "/".length = 1 := rfl
  omega

end Dictionary

namespace Value

section Inside

/-- The value is the other one or stands in it, at any depth. -/
inductive Inside (u : Value) : Value → Prop where
  | self : Inside u u
  | item {items : List Value} {v : Value} (mem : v ∈ items) (inside : Inside u v) :
      Inside u (.array items)
  | entry {entries : Dictionary} {e : String × Value} (mem : e ∈ entries.entries)
      (inside : Inside u e.2) : Inside u (.dictionary entries)

/-- No dictionary in the value has a key that begins with a slash. -/
def Bare (v : Value) : Prop := ∀ d, (dictionary d).Inside v → ∀ key, "/" ++ key ∉ d.keys

@[simp] theorem bare_variable (x : String) (kind : Option ValueKind) :
    (Value.variable x kind).Bare := nofun

@[simp] theorem bare_number (n : Float32) : (number n).Bare := nofun

@[simp] theorem bare_array {items : List Value} : (array items).Bare ↔ ∀ v ∈ items, v.Bare := by
  constructor
  · exact fun h v hv d hd => h d (.item hv hd)
  · intro h d hd
    cases hd with
    | item mem inside => exact h _ mem d inside

@[simp] theorem bare_dictionary {d : Dictionary} :
    (dictionary d).Bare ↔ (∀ key, "/" ++ key ∉ d.keys) ∧ ∀ e ∈ d.entries, e.2.Bare := by
  constructor
  · exact fun h => ⟨h d .self, fun e he d' hd' => h d' (.entry he hd')⟩
  · rintro ⟨hd, hentries⟩ d' hd'
    cases hd' with
    | self => exact hd
    | entry mem inside => exact hentries _ mem d' inside

end Inside

section Replaced

variable {bindings : Table Value}

mutual

/-- The value with its variables replaced by their values, and all else as it is. -/
def replaced (bindings : Table Value) : Value → Value
  | .variable x kind => (bindings.find? x).getD (.variable x kind)
  | .array items => .array (replacedItems bindings items)
  | .dictionary ⟨sorted⟩ => .dictionary ⟨replacedEntries bindings sorted⟩
  | v => v

def replacedItems (bindings : Table Value) : List Value → List Value
  | [] => []
  | v :: rest => replaced bindings v :: replacedItems bindings rest

def replacedEntries (bindings : Table Value) {low : Option String} :
    Entries Value low → Entries Value low
  | .nil => .nil
  | .cons key v above rest => .cons key (replaced bindings v) above (replacedEntries bindings rest)

end

theorem map_fst_replacedEntries {low : Option String} (entries : Entries Value low) :
    (replacedEntries bindings entries).toList.map Prod.fst = entries.toList.map Prod.fst := by
  induction entries with
  | nil => rfl
  | cons key v above rest ih =>
    rw [replacedEntries, Entries.toList_cons, List.map_cons, ih]
    rfl

/-- Each value of a dictionary has been replaced. -/
theorem exists_of_mem_entries {low : Option String} {entries : Entries Value low}
    {es : List (String × Value)} {e : String × Value}
    (h : substituteEntries bindings entries = .ok es) (he : e ∈ entries.toList) :
    ∃ w, e.2.substitute bindings = .ok w := by
  induction entries generalizing es with
  | nil => cases he
  | cons key v _ rest ih =>
    obtain ⟨w, es', hv, hrest, rfl⟩ := substituteEntries_cons_eq_ok.mp h
    rcases List.mem_cons.mp he with rfl | he
    · exact ⟨w, hv⟩
    · exact ih hrest he

theorem map_fst_substituteEntries {low : Option String} {entries : Entries Value low}
    {es : List (String × Value)} (h : substituteEntries bindings entries = .ok es) :
    es.map Prod.fst = entries.toList.map Prod.fst := by
  induction entries generalizing es with
  | nil =>
    cases h
    rfl
  | cons key v _ rest ih =>
    obtain ⟨w, es', -, hrest, rfl⟩ := substituteEntries_cons_eq_ok.mp h
    rw [List.map_cons, ih hrest]
    rfl

/-- A dictionary that is put together again has the entries put in, and no others, exactly if no key
begins with a slash. -/
theorem ofEntries_eq_replaced_iff {d : Dictionary} {es : List (String × Value)}
    (hes : substituteEntries bindings d.sorted = .ok es) :
    Dictionary.ofEntries es = ⟨replacedEntries bindings d.sorted⟩ ↔
      (∀ key, "/" ++ key ∉ d.keys) ∧ es = (replacedEntries bindings d.sorted).toList := by
  have hkeys : es.map Prod.fst = d.keys := map_fst_substituteEntries hes
  have hasc : (es.map Prod.fst).Pairwise (· < ·) := hkeys ▸ d.ascending
  rw [← hkeys]
  constructor
  · intro heq
    have hsame : (Dictionary.ofEntries es).keys = es.map Prod.fst := by
      rw [heq, hkeys]
      exact map_fst_replacedEntries d.sorted
    have hbare := Dictionary.bare_of_keys_subset fun k hk => hsame ▸ hk
    refine ⟨hbare, ?_⟩
    rw [← Dictionary.entries_ofEntries_of_bare hasc hbare, heq]
    rfl
  · rintro ⟨hbare, heq⟩
    refine Table.ext_entries ?_
    rw [Dictionary.entries_ofEntries_of_bare hasc hbare, heq]
    rfl

mutual

/-- What is left when the variables are replaced is the value with them replaced, exactly if no key
begins with a slash. -/
theorem substitute_eq_replaced_iff (v : Value) {w : Value} (h : v.substitute bindings = .ok w) :
    w = v.replaced bindings ↔ v.Bare := by
  cases v with
  | «variable» x kind =>
    have hw : w = (Value.variable x kind).replaced bindings := by
      rw [substitute] at h
      split at h
      · next u hu =>
        cases h
        rw [replaced, hu, Option.getD_some]
      · cases h
    exact iff_of_true hw nofun
  | array items =>
    obtain ⟨ws, hws, rfl⟩ := substitute_array_eq_ok.mp h
    rw [replaced, array.injEq, bare_array]
    exact substituteItems_eq_replaced_iff items hws
  | dictionary d =>
    obtain ⟨es, hes, rfl⟩ := substitute_dictionary_eq_ok.mp h
    rw [replaced, dictionary.injEq, bare_dictionary, Table.entries,
      ← substituteEntries_eq_replaced_iff d.sorted hes]
    exact ofEntries_eq_replaced_iff hes
  | number | string | boolean | name | keyword =>
    cases h
    exact iff_of_true rfl nofun
termination_by structural v

theorem substituteItems_eq_replaced_iff (items : List Value) {ws : List Value}
    (h : substituteItems bindings items = .ok ws) :
    ws = replacedItems bindings items ↔ ∀ v ∈ items, v.Bare := by
  cases items with
  | nil =>
    cases h
    exact iff_of_true rfl (List.forall_mem_nil _)
  | cons v rest =>
    obtain ⟨w, ws', hv, hrest, rfl⟩ := substituteItems_cons_eq_ok.mp h
    rw [replacedItems, List.cons.injEq, List.forall_mem_cons,
      substitute_eq_replaced_iff v hv, substituteItems_eq_replaced_iff rest hrest]
termination_by structural items

theorem substituteEntries_eq_replaced_iff {low : Option String} (entries : Entries Value low)
    {es : List (String × Value)} (h : substituteEntries bindings entries = .ok es) :
    es = (replacedEntries bindings entries).toList ↔ ∀ e ∈ entries.toList, e.2.Bare := by
  cases entries with
  | nil =>
    cases h
    exact iff_of_true rfl (List.forall_mem_nil _)
  | cons key v above rest =>
    obtain ⟨w, es', hv, hrest, rfl⟩ := substituteEntries_cons_eq_ok.mp h
    rw [replacedEntries, Entries.toList_cons, Entries.toList_cons, List.cons.injEq,
      Prod.mk.injEq, List.forall_mem_cons, substitute_eq_replaced_iff v hv,
      substituteEntries_eq_replaced_iff rest hrest, and_iff_right rfl]
termination_by structural entries

end

mutual

/-- A value without variables is what it is with them replaced. -/
theorem replaced_of_concrete (v : Value) (h : v.Concrete) : v.replaced bindings = v := by
  cases v with
  | «variable» x kind => exact absurd .self (h x kind)
  | array items =>
    rw [replaced, replacedItems_of_concrete items fun v hv x kind hm => h x kind (.item hv hm)]
  | dictionary d =>
    rw [replaced, replacedEntries_of_concrete d.sorted fun e he x kind hm =>
      h x kind (.entry he hm)]
  | number | string | boolean | name | keyword => rfl
termination_by structural v

theorem replacedItems_of_concrete (items : List Value) (h : ∀ v ∈ items, v.Concrete) :
    replacedItems bindings items = items := by
  cases items with
  | nil => rfl
  | cons v rest =>
    rw [List.forall_mem_cons] at h
    rw [replacedItems, replaced_of_concrete v h.1, replacedItems_of_concrete rest h.2]
termination_by structural items

theorem replacedEntries_of_concrete {low : Option String} (entries : Entries Value low)
    (h : ∀ e ∈ entries.toList, e.2.Concrete) : replacedEntries bindings entries = entries := by
  cases entries with
  | nil => rfl
  | cons key v above rest =>
    rw [Entries.toList_cons, List.forall_mem_cons] at h
    rw [replacedEntries, replaced_of_concrete v h.1, replacedEntries_of_concrete rest h.2]
termination_by structural entries

end

/-- All variables in a value that has had them replaced have values. -/
theorem Mentions.declared {v : Value} {x : String} {kind : Option ValueKind}
    (hm : v.Mentions x kind) {w : Value} (h : v.substitute bindings = .ok w) :
    bindings.find? x ≠ none := by
  induction hm generalizing w with
  | self =>
    intro hx
    rw [substitute, hx] at h
    cases h
  | item mem _ ih =>
    obtain ⟨ws, hws, -⟩ := substitute_array_eq_ok.mp h
    obtain ⟨w', -, hw'⟩ := exists_of_mem_items hws mem
    exact ih hw'
  | entry mem _ ih =>
    obtain ⟨es, hes, -⟩ := substitute_dictionary_eq_ok.mp h
    obtain ⟨w', hw'⟩ := exists_of_mem_entries hes mem
    exact ih hw'

/-- What becomes of the operands of an operation. -/
theorem forall₂_substituteItems {items ws : List Value}
    (h : substituteItems bindings items = .ok ws) :
    List.Forall₂ (fun v w => (w = v.replaced bindings ↔ v.Bare) ∧
      (v.Concrete → (w = v ↔ v.Bare))) items ws := by
  induction items generalizing ws with
  | nil =>
    cases h
    exact .nil
  | cons v rest ih =>
    obtain ⟨w, ws', hv, hrest, rfl⟩ := substituteItems_cons_eq_ok.mp h
    have hw := substitute_eq_replaced_iff v hv
    refine .cons ⟨hw, fun hc => ?_⟩ (ih hrest)
    rw [← hw, replaced_of_concrete v hc]

end Replaced

end Value

namespace Conversion

variable {φ ω : Type} [FontMetrics φ Float32]

/-- A statement fails at its first operand with a variable that has no value. -/
theorem statement_of_substitute_error (env : Environment φ ω) (c : Converter φ ω) (o : Operation)
    {e : ScriptError} (h : Value.substituteItems c.bindings o.operands = .error e) :
    (statement env (.graphics o)).run c =
      (.error e, { c with report.statements := c.report.statements + 1 }) := by
  unfold statement operation
  refine (Step.run_bind_ok rfl).trans ((Step.run_bind_ok rfl).trans (Step.run_bind_error ?_))
  dsimp only
  rw [h]
  rfl

/-- In the operands of a statement variables are replaced by their values. All else stays as it is,
at any depth, in each operand without a key that begins with a slash and in no other. Where a
variable has no value the statement fails. -/
theorem operands_replaced (env : Environment φ ω) (c : Converter φ ω) (o : Operation) :
    ((∀ v ∈ o.operands, ∀ x kind, v.Mentions x kind → c.bindings.find? x ≠ none) →
      ∃ ws, Value.substituteItems c.bindings o.operands = .ok ws ∧
        List.Forall₂ (fun v w => (w = v.replaced c.bindings ↔ v.Bare) ∧
          (v.Concrete → (w = v ↔ v.Bare))) o.operands ws) ∧
    ∀ v ∈ o.operands, ∀ x kind, v.Mentions x kind → c.bindings.find? x = none →
      ∃ u ∈ o.operands, ∃ y declared, u.Mentions y declared ∧ c.bindings.find? y = none ∧
        (statement env (.graphics o)).run c = (.error (.undeclaredVariable y),
          { c with report.statements := c.report.statements + 1 }) := by
  cases h : Value.substituteItems c.bindings o.operands with
  | ok ws =>
    refine ⟨fun _ => ⟨ws, rfl, Value.forall₂_substituteItems h⟩, ?_⟩
    intro v hv x kind hm hx
    obtain ⟨w, -, hw⟩ := Value.exists_of_mem_items h hv
    exact absurd hx (hm.declared hw)
  | error e =>
    obtain ⟨u, hu, y, declared, hm, hy, rfl⟩ := Value.lacks_of_substituteItems o.operands h
    refine ⟨fun hall => absurd hy (hall u hu y declared hm), fun _ _ _ _ _ _ => ?_⟩
    exact ⟨u, hu, y, declared, hm, hy, statement_of_substitute_error env c o h⟩

/-- A width in a dictionary in an array is replaced, and missed if there is none. -/
theorem operands_replaced_nested :
    let operands (width : Value) : List Value :=
      [.array [.dictionary (Table.ofList [("Width", width)])]]
    let o : Operation := ⟨.showSpacedText, operands (.variable "$w" (some .number)),
      [.array], by decide, rfl⟩
    let env := Environment.willing (FixedWidthFont.monospace 500 0)
    let c : Converter FixedWidthFont Unit := { world := () }
    let known := { c with bindings := Table.ofList [("$w", .number 3)] }
    (∃ ws, Value.substituteItems known.bindings o.operands = .ok ws ∧
        ws = operands (.number 3)) ∧
      (statement env (.graphics o)).run c =
        (.error (.undeclaredVariable "$w"), { c with report.statements := 1 }) := by
  intro operands o env c known
  have hentries (width : Value) :
      (Table.ofList [("Width", width)]).entries = [("Width", width)] := rfl
  have hbare : ∀ v ∈ o.operands, v.Bare := by
    have hwidth (key : String) : "/" ++ key ≠ "Width" := fun h =>
      absurd (congrArg String.toList h) (by simp)
    simpa [o, operands, Table.keys, hentries] using hwidth
  have hmentions : ∀ v ∈ o.operands, ∀ x kind, v.Mentions x kind → x = "$w" := by
    simp +contextual [o, operands, hentries, eq_comm]
  have hknown : known.bindings.find? "$w" = some (.number 3) := rfl
  constructor
  · obtain ⟨ws, hws, hall⟩ := (operands_replaced env known o).1 fun v hv x kind hm => by
      rw [hmentions v hv x kind hm, hknown]
      exact Option.some_ne_none _
    refine ⟨ws, hws, ?_⟩
    cases hall with
    | cons hw hrest =>
      cases hrest
      rw [hw.1.mpr (hbare _ List.mem_cons_self)]
      rfl
  · obtain ⟨u, hu, y, declared, hm, -, hrun⟩ := (operands_replaced env c o).2
      _ List.mem_cons_self "$w" (some .number)
      (.item List.mem_cons_self (.entry List.mem_cons_self .self)) rfl
    rw [hrun, hmentions u hu y declared hm]

/-- A key with two slashes loses both. -/
theorem second_slash_lost :
    let operands (key : String) : List Value :=
      [.array [.dictionary (Dictionary.ofEntries [(key, .number 1)])]]
    (∀ v ∈ operands "//x", v.Concrete) ∧
      Value.substituteItems ∅ (operands "//x") = .ok (operands "x") ∧
      operands "x" ≠ operands "//x" := by
  intro operands
  have hentries (key : String) :
      (Dictionary.ofEntries [(key, .number 1)]).entries =
        [(Dictionary.bareKey key, .number 1)] := rfl
  refine ⟨List.forall_mem_singleton.mpr fun x kind hm => ?_, rfl, fun h => ?_⟩
  · exact Value.concrete_number 1 x kind (by simpa [hentries] using hm)
  · have heq : Dictionary.ofEntries [("x", .number 1)] =
        Dictionary.ofEntries [("//x", .number 1)] := by simpa [operands] using h
    have hkeys := congrArg Table.keys heq
    rw [Table.keys, Table.keys, hentries, hentries] at hkeys
    exact absurd hkeys (by decide)

end Conversion

end PageScript
