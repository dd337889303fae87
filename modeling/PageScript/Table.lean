/-!
# Tables

Finite maps from text keys, kept as entries in ascending order of their keys. A later entry under a
key replaces the earlier one.
-/
namespace PageScript

/-- Entries in ascending order of their keys, all above a bound if there is one. -/
inductive Entries (α : Type) : Option String → Type where
  | nil {low : Option String} : Entries α low
  | cons {low : Option String} (key : String) (value : α) (above : ∀ k ∈ low, k < key)
      (rest : Entries α (some key)) : Entries α low

namespace Entries

variable {α : Type} {low : Option String}

def toList {low : Option String} : Entries α low → List (String × α)
  | nil => []
  | cons key value _ rest => (key, value) :: rest.toList

/-- The same entries above a lower bound. -/
def lower {key : String} (above : ∀ k ∈ low, k < key) : Entries α (some key) → Entries α low
  | nil => nil
  | cons k value h rest => cons k value (fun l hl => String.lt_trans (above l hl) (h key rfl)) rest

def insert {low : Option String} (key : String) (value : α) (above : ∀ k ∈ low, k < key) :
    Entries α low → Entries α low
  | nil => cons key value above nil
  | cons k v h rest =>
    if hlt : key < k then cons key value above (cons k v (by simpa using hlt) rest)
    else if heq : key = k then cons k value h rest
    else
      have hgt : k < key := Std.lt_of_le_of_ne (String.not_lt.mp hlt) (Ne.symm heq)
      cons k v h (insert key value (by simpa using hgt) rest)

def erase {low : Option String} (key : String) : Entries α low → Entries α low
  | nil => nil
  | cons k value h rest => if k = key then rest.lower h else cons k value h (rest.erase key)

@[simp] theorem toList_nil : (nil : Entries α low).toList = [] := rfl

@[simp] theorem toList_cons {key : String} {value : α} {above : ∀ k ∈ low, k < key}
    {rest : Entries α (some key)} :
    (cons key value above rest).toList = (key, value) :: rest.toList := rfl

@[simp] theorem toList_lower {key : String} (above : ∀ k ∈ low, k < key)
    (es : Entries α (some key)) : (es.lower above).toList = es.toList := by
  cases es <;> rfl

theorem above_of_mem {low : Option String} {es : Entries α low} {e : String × α}
    (h : e ∈ es.toList) : ∀ k ∈ low, k < e.1 := by
  induction es with
  | nil => cases h
  | cons key value above rest ih =>
    rcases List.mem_cons.mp h with rfl | h
    · exact above
    · exact fun k hk => String.lt_trans (above k hk) (ih h key rfl)

theorem toList_inj {low : Option String} {es es' : Entries α low} (h : es.toList = es'.toList) :
    es = es' := by
  induction es with
  | nil => cases es' with
    | nil => rfl
    | cons => cases h
  | cons key value above rest ih => cases es' with
    | nil => cases h
    | cons key' value' above' rest' =>
      obtain ⟨he, hrest⟩ := List.cons.inj h
      cases he
      rw [ih hrest]

theorem lookup_cons (key : String) (value : α) (rest : List (String × α)) (k : String) :
    List.lookup k ((key, value) :: rest) = if k = key then some value else rest.lookup k := by
  by_cases h : k = key
  · simp [h]
  · rw [List.lookup_cons, beq_false_of_ne h, if_neg h]

theorem lookup_insert {low : Option String} {key : String} (value : α)
    (above : ∀ k ∈ low, k < key) (es : Entries α low) (k : String) :
    (es.insert key value above).toList.lookup k =
      if k = key then some value else es.toList.lookup k := by
  induction es with
  | nil => exact lookup_cons key value [] k
  | cons k' v' h rest ih =>
    unfold insert
    split
    · exact lookup_cons key value _ k
    · split
      · next hk =>
        subst hk
        simp only [toList_cons, lookup_cons]
        split <;> rfl
      · next hk =>
        simp only [toList_cons, lookup_cons, ih]
        by_cases h : k = k'
        · rw [if_pos h, if_pos h, if_neg fun h' : k = key => hk (h'.symm.trans h)]
        · rw [if_neg h, if_neg h]

theorem mem_insert {low : Option String} {key : String} {value : α} {above : ∀ k ∈ low, k < key}
    {es : Entries α low} {e : String × α} (h : e ∈ (es.insert key value above).toList) :
    e = (key, value) ∨ e ∈ es.toList := by
  induction es with
  | nil => exact .inl (List.mem_singleton.mp h)
  | cons k v hk rest ih =>
    unfold insert at h
    split at h
    · exact List.mem_cons.mp h
    · split at h
      · next heq =>
        rw [heq]
        exact (List.mem_cons.mp h).imp_right (List.mem_cons_of_mem _)
      · rcases List.mem_cons.mp h with rfl | h
        · exact .inr List.mem_cons_self
        · exact (ih h).imp_right (List.mem_cons_of_mem _)

/-- No entry is under a key that all keys are above. -/
theorem lookup_eq_none {key : String} (es : Entries α (some key)) : es.toList.lookup key = none := by
  rw [List.lookup_eq_none_iff]
  intro e he
  have hlt := above_of_mem he key rfl
  exact bne_iff_ne.mpr fun h => String.lt_irrefl _ (h ▸ hlt)

theorem lookup_erase {low : Option String} (key : String) (es : Entries α low) (k : String) :
    (es.erase key).toList.lookup k = if k = key then none else es.toList.lookup k := by
  induction es with
  | nil => simp [erase]
  | cons k' v' h rest ih =>
    rw [erase]
    by_cases hk : k' = key
    · subst hk
      rw [if_pos rfl, toList_lower, toList_cons, lookup_cons]
      by_cases h : k = k'
      · rw [if_pos h, h, lookup_eq_none]
      · rw [if_neg h, if_neg h]
    · rw [if_neg hk, toList_cons, toList_cons, lookup_cons, lookup_cons, ih]
      by_cases h : k = k'
      · rw [if_pos h, if_pos h, if_neg fun h' : k = key => hk (h.symm.trans h')]
      · rw [if_neg h, if_neg h]

theorem length_erase_lt {low : Option String} {key : String} {es : Entries α low} {value : α}
    (h : es.toList.lookup key = some value) : (es.erase key).toList.length < es.toList.length := by
  induction es with
  | nil => cases h
  | cons k v hk rest ih =>
    rw [erase]
    split
    · simp
    · next hne =>
      rw [toList_cons, lookup_cons, if_neg (Ne.symm hne)] at h
      exact Nat.succ_lt_succ (ih h)

end Entries

/-- Entries in ascending order of their keys. -/
structure Table (α : Type) where
  sorted : Entries α none

namespace Table

variable {α : Type}

def empty : Table α := ⟨.nil⟩

instance : EmptyCollection (Table α) := ⟨empty⟩

instance : Inhabited (Table α) := ⟨empty⟩

def entries (t : Table α) : List (String × α) := t.sorted.toList

def size (t : Table α) : Nat := t.entries.length

def isEmpty (t : Table α) : Bool := t.entries.isEmpty

def keys (t : Table α) : List String := t.entries.map Prod.fst

def find? (t : Table α) (key : String) : Option α := t.entries.lookup key

def contains (t : Table α) (key : String) : Bool := (t.find? key).isSome

def insert (t : Table α) (key : String) (value : α) : Table α :=
  ⟨t.sorted.insert key value (by simp)⟩

def erase (t : Table α) (key : String) : Table α := ⟨t.sorted.erase key⟩

def ofList (entries : List (String × α)) : Table α :=
  entries.foldl (fun t e => t.insert e.1 e.2) empty

theorem ext_entries {t t' : Table α} (h : t.entries = t'.entries) : t = t' :=
  congrArg mk (Entries.toList_inj h)

@[simp] theorem find?_insert (t : Table α) (key : String) (value : α) (k : String) :
    (t.insert key value).find? k = if k = key then some value else t.find? k :=
  Entries.lookup_insert value (by simp) t.sorted k

theorem mem_insert {t : Table α} {key : String} {value : α} {e : String × α}
    (h : e ∈ (t.insert key value).entries) : e = (key, value) ∨ e ∈ t.entries :=
  Entries.mem_insert h

@[simp] theorem find?_erase (t : Table α) (key k : String) :
    (t.erase key).find? k = if k = key then none else t.find? k :=
  Entries.lookup_erase key t.sorted k

/-- A key that is found has an entry of its own. -/
theorem size_erase_lt {t : Table α} {key : String} {value : α} (h : t.find? key = some value) :
    (t.erase key).size < t.size :=
  Entries.length_erase_lt h

@[simp] theorem find?_empty (k : String) : (∅ : Table α).find? k = none := rfl

end Table

end PageScript
