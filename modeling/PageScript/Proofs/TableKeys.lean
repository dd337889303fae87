import Mathlib.Data.String.Basic
import PageScript.Table

/-!
# The keys of tables

The keys of a table ascend, so that every key has one entry. A table is made of its entries again.
-/
namespace PageScript

variable {α : Type}

namespace Entries

theorem pairwise_keys {low : Option String} (es : Entries α low) :
    (es.toList.map Prod.fst).Pairwise (· < ·) := by
  induction es with
  | nil => exact List.Pairwise.nil
  | cons key value above rest ih =>
    refine List.pairwise_cons.mpr ⟨fun k hk => ?_, ih⟩
    obtain ⟨e, he, rfl⟩ := List.mem_map.mp hk
    exact above_of_mem he key rfl

theorem mem_keys_insert {low : Option String} {key k : String} {value : α}
    {above : ∀ k ∈ low, k < key} {es : Entries α low} :
    k ∈ (es.insert key value above).toList.map Prod.fst ↔
      k = key ∨ k ∈ es.toList.map Prod.fst := by
  induction es with
  | nil => simp [insert]
  | cons k' v h rest ih =>
    unfold insert
    split
    · simp
    · split
      · next hkey => simp [hkey]
      · simp only [toList_cons, List.map_cons, List.mem_cons, ih]
        exact or_left_comm

/-- A key behind all others goes to the end. -/
theorem toList_insert_last {low : Option String} {key : String} {value : α}
    {above : ∀ k ∈ low, k < key} {es : Entries α low}
    (h : ∀ k ∈ es.toList.map Prod.fst, k < key) :
    (es.insert key value above).toList = es.toList ++ [(key, value)] := by
  induction es with
  | nil => rfl
  | cons k v hk rest ih =>
    rw [toList_cons, List.map_cons, List.forall_mem_cons] at h
    rw [insert, dif_neg h.1.not_gt, dif_neg h.1.ne', toList_cons, ih h.2]
    rfl

end Entries

namespace Table

theorem ascending (t : Table α) : t.keys.Pairwise (· < ·) := t.sorted.pairwise_keys

theorem nodup_keys (t : Table α) : t.keys.Nodup := t.ascending.imp fun h => h.ne

@[simp] theorem keys_empty : (∅ : Table α).keys = [] := rfl

theorem mem_keys {t : Table α} {key : String} {value : α} (h : t.find? key = some value) :
    key ∈ t.keys := by
  obtain ⟨front, back, hentries, -⟩ := List.lookup_eq_some_iff.mp h
  rw [keys, hentries]
  simp

theorem length_keys (t : Table α) : t.keys.length = t.size := List.length_map _

@[simp] theorem mem_keys_insert {t : Table α} {key k : String} {value : α} :
    k ∈ (t.insert key value).keys ↔ k = key ∨ k ∈ t.keys :=
  Entries.mem_keys_insert

/-- Entries in order are put into a table as they are. -/
theorem entries_foldl_insert {t : Table α} {more : List (String × α)}
    (h : ((t.entries ++ more).map Prod.fst).Pairwise (· < ·)) :
    (more.foldl (fun t e => t.insert e.1 e.2) t).entries = t.entries ++ more := by
  induction more generalizing t with
  | nil => exact (List.append_nil _).symm
  | cons e more ih =>
    have hbelow : ∀ k ∈ t.entries.map Prod.fst, k < e.1 := by
      rw [List.map_append, List.pairwise_append] at h
      exact fun k hk => h.2.2 k hk e.1 (by simp)
    have hinsert : (t.insert e.1 e.2).entries = t.entries ++ [e] :=
      Entries.toList_insert_last hbelow
    rw [List.foldl_cons, ih (by simpa [hinsert] using h), hinsert]
    simp

theorem entries_ofList {entries : List (String × α)}
    (h : (entries.map Prod.fst).Pairwise (· < ·)) : (ofList entries).entries = entries :=
  @entries_foldl_insert α empty entries h

theorem ofList_entries (t : Table α) : ofList t.entries = t :=
  ext_entries (entries_ofList t.ascending)

end Table

end PageScript
