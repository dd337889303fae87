import Mathlib.Data.List.Dedup
import Mathlib.Data.List.Induction
import PageScript.Conversion.Overrides
import PageScript.Proofs.TableKeys

/-!
# Values given one after the other

A name with and without its dollar sign is one variable, whose value is the one given last. It is
found under the name with the dollar sign only.
-/
namespace PageScript.Overrides

section Names

variable {x y : String}

/-- The name has a leading dollar sign. -/
def Dollared (name : String) : Prop := ∃ bare, name = "$" ++ bare

theorem dollarName_of_dollared (h : Dollared x) : dollarName x = x := by
  obtain ⟨bare, rfl⟩ := h
  simp [dollarName]

theorem dollarName_of_not_dollared (h : ¬ Dollared x) : dollarName x = "$" ++ x := by
  unfold dollarName
  split
  · next rest hx =>
    refine absurd ⟨String.ofList rest, ?_⟩ h
    rw [← String.ofList_toList (s := x), hx]
    exact @String.ofList_append ['$'] rest
  · rfl

theorem dollared_dollarName (x : String) : Dollared (dollarName x) := by
  by_cases h : Dollared x
  · rwa [dollarName_of_dollared h]
  · exact ⟨x, dollarName_of_not_dollared h⟩

/-- The names are equal up to a missing leading dollar sign. -/
def SameVariable (x y : String) : Prop :=
  x = y ∨ (¬ Dollared x ∧ "$" ++ x = y) ∨ (¬ Dollared y ∧ x = "$" ++ y)

theorem sameVariable_iff : SameVariable x y ↔ dollarName x = dollarName y := by
  by_cases hx : Dollared x <;> by_cases hy : Dollared y
  · simp [SameVariable, hx, hy, dollarName_of_dollared]
  · have hne : x ≠ y := fun h => hy (h ▸ hx)
    simp [SameVariable, hx, hy, hne, dollarName_of_dollared, dollarName_of_not_dollared]
  · have hne : x ≠ y := fun h => hx (h ▸ hy)
    simp [SameVariable, hx, hy, hne, dollarName_of_dollared, dollarName_of_not_dollared]
  · have hleft : "$" ++ x ≠ y := fun h => hy ⟨x, h.symm⟩
    have hright : x ≠ "$" ++ y := fun h => hx ⟨y, h⟩
    simp [SameVariable, hx, hy, hleft, hright, dollarName_of_not_dollared]

instance : DecidableRel SameVariable := fun _ _ => decidable_of_iff _ sameVariable_iff.symm

end Names

variable {sets : List (String × Value)} {x : String}

/-- The values of a caller who gives one after the other. -/
def given (sets : List (String × Value)) : Overrides :=
  sets.foldl (fun o s => o.set s.1 s.2) ∅

/-- The value that is given last under the name, with or without the dollar sign. -/
def last? (sets : List (String × Value)) (x : String) : Option Value :=
  (sets.reverse.find? fun s => SameVariable s.1 x).map Prod.snd

theorem given_append_singleton (sets : List (String × Value)) (s : String × Value) :
    given (sets ++ [s]) = (given sets).set s.1 s.2 := by
  simp [given]

theorem last?_append_singleton (sets : List (String × Value)) (s : String × Value) (x : String) :
    last? (sets ++ [s]) x = if SameVariable s.1 x then some s.2 else last? sets x := by
  rw [last?, List.reverse_append, List.reverse_singleton, List.singleton_append, List.find?_cons]
  by_cases h : SameVariable s.1 x <;> simp [h, last?]

theorem find?_given (sets : List (String × Value)) (x : String) :
    (given sets).find? (dollarName x) = last? sets x := by
  induction sets using List.reverseRecOn with
  | nil => rfl
  | append_singleton sets s ih =>
    rw [given_append_singleton, last?_append_singleton, set, Table.find?_insert, ih]
    simp only [sameVariable_iff, eq_comm]

theorem mem_keys_given : x ∈ (given sets).keys ↔ x ∈ sets.map fun s => dollarName s.1 := by
  induction sets using List.reverseRecOn with
  | nil => simp [given]
  | append_singleton sets s ih =>
    rw [given_append_singleton, set, Table.mem_keys_insert, ih, List.map_append, List.mem_append,
      List.map_singleton, List.mem_singleton, or_comm]

theorem get?_of_not_dollared (h : ¬ Dollared x) : (given sets).get? x = none := by
  by_contra hfound
  obtain ⟨v, hv⟩ := Option.ne_none_iff_exists'.mp hfound
  obtain ⟨s, -, rfl⟩ := List.mem_map.mp (mem_keys_given.mp (Table.mem_keys hv))
  exact h (dollared_dollarName s.1)

/-- No two of the names left are the same variable, and each variable has one of them. -/
theorem size_given (sets : List (String × Value)) :
    (given sets).size =
      ((sets.map Prod.fst).pwFilter fun x y => ¬ SameVariable x y).length := by
  have hperm : (given sets).keys.Perm ((sets.map Prod.fst).map dollarName).dedup :=
    (List.perm_ext_iff_of_nodup (given sets).nodup_keys (List.nodup_dedup _)).mpr fun x => by
      rw [mem_keys_given, List.mem_dedup, List.map_map]
      rfl
  rw [← Table.length_keys, hperm.length_eq, List.dedup, List.pwFilter_map, List.length_map]
  simp only [sameVariable_iff, ne_eq]

/-- The value given last is found exactly under the name with its dollar sign, or if there is none.
There are as many values as variables that a value was given for. -/
theorem get?_given_iff (sets : List (String × Value)) :
    (∀ x, (given sets).get? x = last? sets x ↔ Dollared x ∨ last? sets x = none) ∧
    (∀ x, ¬ Dollared x → (given sets).get? x = none) ∧
    (given sets).size =
      ((sets.map Prod.fst).pwFilter fun x y => ¬ SameVariable x y).length := by
  refine ⟨fun x => ?_, fun x => get?_of_not_dollared, size_given sets⟩
  by_cases h : Dollared x
  · refine iff_of_true ?_ (.inl h)
    rw [get?, ← find?_given, dollarName_of_dollared h]
  · rw [get?_of_not_dollared h, or_iff_right h, eq_comm]

/-- The width is given, and not found under the name that it was given with. -/
theorem given_width_not_found :
    let sets := [("width", Value.number 7)]
    (given sets).get? "width" = none ∧ last? sets "width" = some (.number 7) := by
  have hbare : ¬ Dollared "width" := by
    rintro ⟨bare, h⟩
    exact absurd (congrArg String.toList h) (by simp)
  refine ⟨get?_of_not_dollared hbare, ?_⟩
  rw [last?, List.reverse_singleton, List.find?_singleton, if_pos (decide_eq_true (.inl rfl))]
  rfl

end PageScript.Overrides
