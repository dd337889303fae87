import PageScript.Proofs.PatternEntries

/-!
# Patterns as they are read back

The dictionary with the entries of a pattern describes the pattern.
-/
namespace PageScript

namespace Table

variable {α : Type} {t : Table α} {key : String} {value : α} {entries : List (String × α)}

/-- Entries one after the other put into a table. -/
theorem find?_foldl_of_notMem (h : key ∉ entries.map Prod.fst) :
    (entries.foldl (fun (t : Table α) e => t.insert e.1 e.2) t).find? key = t.find? key := by
  induction entries generalizing t with
  | nil => rfl
  | cons e entries ih =>
    rw [List.map_cons, List.mem_cons, not_or] at h
    rw [List.foldl_cons, ih h.2, find?_insert, if_neg h.1]

theorem find?_foldl_of_mem (hn : (entries.map Prod.fst).Nodup) (h : (key, value) ∈ entries) :
    (entries.foldl (fun (t : Table α) e => t.insert e.1 e.2) t).find? key = some value := by
  induction entries generalizing t with
  | nil => simp at h
  | cons e entries ih =>
    rw [List.map_cons, List.nodup_cons] at hn
    rw [List.foldl_cons]
    rcases List.mem_cons.mp h with rfl | hmem
    · rw [find?_foldl_of_notMem hn.1, find?_insert, if_pos rfl]
    · exact ih hn.2 hmem

theorem find?_ofList_of_mem (hn : (entries.map Prod.fst).Nodup) (h : (key, value) ∈ entries) :
    (ofList entries).find? key = some value := find?_foldl_of_mem hn h

theorem find?_ofList_of_notMem (h : key ∉ entries.map Prod.fst) :
    (ofList entries).find? key = none := find?_foldl_of_notMem h

end Table

namespace Pattern

variable {p : Pattern}

theorem keys_zipIdx (p : Pattern) : p.stops.zipIdx.map (fun s => colorKey s.2) =
    (List.range p.stops.length).map colorKey := by
  have hrange : p.stops.zipIdx.map Prod.snd = List.range p.stops.length := by
    rw [List.zipIdx_map_snd, List.range_eq_range']
  rw [← hrange, List.map_map]
  rfl

theorem keys_entries (p : Pattern) : p.entries.map Prod.fst =
    "Rect" :: ((List.range p.stops.length).map colorKey ++ ["Stops"]) := by
  rw [← keys_zipIdx]
  simp [entries]

theorem nodup_keys_entries (p : Pattern) : (p.entries.map Prod.fst).Nodup := by
  rw [keys_entries, List.nodup_cons, List.nodup_append]
  refine ⟨?_, nodup_colorKeys _, by simp, ?_⟩
  · simp [colorKey_ne]
  · simp [colorKey_ne]

/-- The dictionary that describes the pattern. -/
def dictionary (p : Pattern) : Dictionary := Table.ofList p.entries

theorem isLeast_missing_dictionary (p : Pattern) :
    IsLeast {i | p.dictionary.find? (colorKey i) = none} p.stops.length := by
  constructor
  · refine Table.find?_ofList_of_notMem ?_
    rw [keys_entries]
    simp [colorKey_ne, colorKey_injective.eq_iff]
  · intro i hi
    by_contra! hlt
    have hmem : colorKey i ∈ p.entries.map Prod.fst := by
      rw [keys_entries]
      simp [colorKey_injective.eq_iff, hlt]
    obtain ⟨e, he, hkey⟩ := List.mem_map.mp hmem
    have hfound := Table.find?_ofList_of_mem (nodup_keys_entries p) he
    rw [hkey] at hfound
    exact Option.some_ne_none _ (hfound.symm.trans hi)

/-- A pattern with the colours of its space is described by its entries. -/
theorem ofDictionary_dictionary (h : ∀ stop ∈ p.stops, stop.color.space = p.space) :
    ofDictionary p.kind p.space p.dictionary = .ok p := by
  rw [ofDictionary_eq_ofColors (isLeast_missing_dictionary p), ofColors_eq_ok]
  exact ⟨rfl, rfl, rfl, h, fun _ he => Table.find?_ofList_of_mem (nodup_keys_entries p) he⟩

end Pattern

end PageScript
