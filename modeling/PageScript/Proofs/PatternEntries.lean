import Mathlib.Data.List.Forall2
import Mathlib.Order.Bounds.Basic
import PageScript.Proofs.Printing
import PageScript.Proofs.TableKeys

/-!
# The entries of patterns

A dictionary describes a pattern if there is an array of numbers under each key of the pattern, with
as many numbers as the pattern needs there. The first colour that is missing ends the colours.
-/
namespace PageScript

section Reading

variable {α β : Type}

theorem bind_eq_ok {x : Except ScriptError α} {f : α → Except ScriptError β} {b : β} :
    x >>= f = .ok b ↔ ∃ a, x = .ok a ∧ f a = .ok b := by
  cases x <;> simp [bind, Except.bind]

variable {f : α → Except ScriptError β} {as : List α}

theorem mapM_eq_ok {bs : List β} :
    as.mapM f = .ok bs ↔ List.Forall₂ (fun a b => f a = .ok b) as bs := by
  induction as generalizing bs with
  | nil => simp [pure, Except.pure, eq_comm]
  | cons a as ih =>
    simp only [List.mapM_cons, bind_eq_ok, ih, pure, Except.pure, Except.ok.injEq,
      List.forall₂_cons_left_iff, eq_comm (b := bs)]
    grind

theorem exists_mapM_eq_ok : (∃ bs, as.mapM f = .ok bs) ↔ ∀ a ∈ as, ∃ b, f a = .ok b := by
  induction as with
  | nil => simp [pure, Except.pure]
  | cons a as ih =>
    rw [List.forall_mem_cons, ← ih]
    simp only [mapM_eq_ok, List.forall₂_cons_left_iff]
    grind

theorem mapM_congr {g : α → Except ScriptError β} (h : ∀ a ∈ as, f a = g a) :
    as.mapM f = as.mapM g := by
  induction as with
  | nil => rfl
  | cons a as ih =>
    obtain ⟨hfirst, hmore⟩ := List.forall_mem_cons.mp h
    rw [List.mapM_cons, List.mapM_cons, hfirst, ih hmore]

end Reading

theorem Value.toNumbers_eq_ok {values : List Value} {numbers : List Float32} :
    toNumbers values = .ok numbers ↔ values = numbers.map .number := by
  have hnumber (v : Value) (n : Float32) : v.toNumber = .ok n ↔ v = .number n := by
    constructor
    · exact toNumber_eq_ok
    · rintro rfl
      rfl
  simp only [toNumbers, mapM_eq_ok, hnumber]
  rw [← List.forall₂_map_right_iff, List.forall₂_eq_eq_eq]

theorem Rectangle.ofValues_eq_ok {values : List Value} {r : Rectangle Float32} :
    ofValues values = .ok r ↔ values = [r.left, r.bottom, r.width, r.height].map .number := by
  constructor
  · intro h
    unfold ofValues at h
    split at h
    · next hnumbers =>
      cases h
      exact Value.toNumbers_eq_ok.mp hnumbers
    · cases h
    · cases h
  · rintro rfl
    rfl

namespace Dictionary

variable {d d' : Dictionary} {key : String}

theorem required_items_eq_ok {items : List Value} :
    d.required items? key = .ok items ↔ d.find? key = some (.array items) := by
  constructor
  · intro h
    unfold required at h
    split at h
    · cases h
    · cases h
    · next hitems =>
      cases h
      exact find?_of_items hitems
  · intro h
    simp [required, items?, typed?, h, Value.kind, Value.toItems, Except.map]

theorem items?_eq_ok_none : d.items? key = .ok none ↔ d.find? key = none := by
  rw [items?, typed?]
  cases d.find? key with
  | none => simp
  | some v =>
    by_cases hkind : v.kind = some .array
    · cases hitems : v.toItems <;> simp [hkind, hitems, Except.map]
    · simp [hkind]

theorem items?_congr (h : d'.find? key = d.find? key) : d'.items? key = d.items? key := by
  rw [items?, typed?, typed?, h]

theorem required_items_congr (h : d'.find? key = d.find? key) :
    d'.required items? key = d.required items? key := by
  rw [required, required, items?_congr h]

/-- There is an array of so many numbers under the key. -/
def HasNumbers (d : Dictionary) (key : String) (count : Nat) : Prop :=
  ∃ numbers : List Float32, numbers.length = count ∧ d.find? key = some (.ofNumbers numbers)

end Dictionary

namespace Pattern

variable {kind : PatternKind} {space : ColorSpace} {d d' : Dictionary} {p : Pattern} {n : Nat}

theorem toList_colorKey (n : Nat) : (colorKey n).toList = 'C' :: Nat.toDigits 10 n := by
  have hC : (toString "C").toList = ['C'] := by decide
  simp [colorKey, hC]

theorem colorKey_injective : Function.Injective colorKey := by
  intro i j h
  have hlists := congrArg String.toList h
  rw [toList_colorKey, toList_colorKey] at hlists
  have hdigits : Nat.toDigits 10 i = Nat.toDigits 10 j := (List.cons.inj hlists).2
  calc
    i = Nat.ofDigitChars 10 (Nat.toDigits 10 i) 0 := Nat.ofDigitChars_ten_toDigits.symm
    _ = Nat.ofDigitChars 10 (Nat.toDigits 10 j) 0 := by rw [hdigits]
    _ = j := Nat.ofDigitChars_ten_toDigits

theorem colorKey_ne (n : Nat) : colorKey n ≠ "Rect" ∧ colorKey n ≠ "Stops" := by
  constructor <;>
  · intro h
    have hlists := congrArg String.toList h
    rw [toList_colorKey] at hlists
    simp at hlists

theorem nodup_colorKeys (n : Nat) : ((List.range n).map colorKey).Nodup :=
  List.pairwise_map.mpr (List.nodup_range.imp fun hne h => hne (colorKey_injective h))

section Colors

variable {i k m : Nat} {color : Color}

theorem colorOf_eq_ok {key : String} {items : List Value} :
    colorOf space key items = .ok color ↔
      color.space = space ∧ items = color.components.map .number := by
  rw [colorOf, bind_eq_ok]
  simp only [Value.toNumbers_eq_ok]
  constructor
  · rintro ⟨components, rfl, h⟩
    split at h
    · next hcolor =>
      cases h
      obtain ⟨hspace, rfl⟩ := Color.ofComponents?_eq_some.mp hcolor
      exact ⟨hspace, rfl⟩
    · cases h
  · rintro ⟨hspace, rfl⟩
    refine ⟨color.components, rfl, ?_⟩
    rw [Color.ofComponents?_eq_some.mpr ⟨hspace, rfl⟩]

/-- The colour under `C<i>`. -/
def colorUnder (space : ColorSpace) (d : Dictionary) (i : Nat) : Except ScriptError Color := do
  colorOf space (colorKey i) (← d.required Dictionary.items? (colorKey i))

theorem colorUnder_eq_ok : colorUnder space d i = .ok color ↔
    color.space = space ∧ d.find? (colorKey i) = some (.ofNumbers color.components) := by
  simp only [colorUnder, bind_eq_ok, Dictionary.required_items_eq_ok, colorOf_eq_ok]
  constructor
  · rintro ⟨items, hitems, hspace, rfl⟩
    exact ⟨hspace, hitems⟩
  · rintro ⟨hspace, hitems⟩
    exact ⟨_, hitems, hspace, rfl⟩

theorem exists_colorUnder_eq_ok : (∃ color, colorUnder space d i = .ok color) ↔
    d.HasNumbers (colorKey i) space.componentCount := by
  simp only [colorUnder_eq_ok]
  constructor
  · rintro ⟨color, rfl, h⟩
    exact ⟨_, Color.length_components color, h⟩
  · rintro ⟨numbers, hlength, h⟩
    obtain ⟨color, hcolor⟩ := Color.exists_ofComponents?.mpr hlength
    obtain ⟨hspace, rfl⟩ := Color.ofComponents?_eq_some.mp hcolor
    exact ⟨color, hspace, h⟩

theorem colorUnder_congr (h : d'.find? (colorKey i) = d.find? (colorKey i)) :
    colorUnder space d' i = colorUnder space d i := by
  rw [colorUnder, colorUnder, Dictionary.required_items_congr h]

theorem takeColors_of_missing (h : d.find? (colorKey k) = none) :
    takeColors space k d = .ok ([], d) := by
  have hitems := Dictionary.items?_eq_ok_none.mpr h
  rw [takeColors]
  split
  · next hread => simp [hitems] at hread
  · rfl
  · next hread => simp [hitems] at hread

theorem takeColors_of_present (h : d.find? (colorKey k) ≠ none) :
    takeColors space k d = do
      let color ← colorUnder space d k
      let (colors, rest) ← takeColors space (k + 1) (d.erase (colorKey k))
      return (color :: colors, rest) := by
  rw [takeColors]
  split
  · next hread => simp [colorUnder, Dictionary.required, hread, bind, Except.bind]
  · next hread => exact absurd (Dictionary.items?_eq_ok_none.mp hread) h
  · next hread => simp [colorUnder, Dictionary.required, hread, bind, Except.bind]

theorem find?_foldl_erase {key : String} {is : List Nat} (h : ∀ i ∈ is, key ≠ colorKey i) :
    (is.foldl (fun (d : Dictionary) i => d.erase (colorKey i)) d).find? key = d.find? key := by
  induction is generalizing d with
  | nil => rfl
  | cons i is ih =>
    obtain ⟨hfirst, hmore⟩ := List.forall_mem_cons.mp h
    rw [List.foldl_cons, ih hmore, Table.find?_erase, if_neg hfirst]

/-- The colours are taken one after the other from what the earlier ones have left of `d`. -/
theorem takeColors_eq {left : Dictionary}
    (hleft : ∀ i, k ≤ i → left.find? (colorKey i) = d.find? (colorKey i))
    (hpresent : ∀ i, k ≤ i → i < k + m → d.find? (colorKey i) ≠ none)
    (hmissing : d.find? (colorKey (k + m)) = none) :
    takeColors space k left = ((List.range' k m).mapM (colorUnder space d)).map fun colors =>
      (colors, (List.range' k m).foldl (fun d i => d.erase (colorKey i)) left) := by
  induction m generalizing k left with
  | zero => exact takeColors_of_missing ((hleft k le_rfl).trans hmissing)
  | succ m ih =>
    have hlater : ∀ i, k + 1 ≤ i →
        (left.erase (colorKey k)).find? (colorKey i) = d.find? (colorKey i) := by
      intro i hi
      have hne : colorKey i ≠ colorKey k := fun h => by
        have := colorKey_injective h
        omega
      rw [Table.find?_erase, if_neg hne, hleft i (by omega)]
    have hrest := ih hlater (fun i hi hm => hpresent i (by omega) (by omega))
      (by rwa [show k + 1 + m = k + (m + 1) by omega])
    have hfirst : left.find? (colorKey k) ≠ none := by
      rw [hleft k le_rfl]
      exact hpresent k le_rfl (by omega)
    rw [takeColors_of_present hfirst, colorUnder_congr (hleft k le_rfl), hrest, List.range'_succ,
      List.mapM_cons]
    cases colorUnder space d k with
    | error e => rfl
    | ok color => cases (List.range' (k + 1) m).mapM (colorUnder space d) <;> rfl

end Colors

/-- The pattern with `n` colours that a dictionary describes. -/
def ofColors (kind : PatternKind) (space : ColorSpace) (n : Nat) (d : Dictionary) :
    Except ScriptError Pattern := do
  let rectangle ← Rectangle.ofValues (← d.required Dictionary.items? "Rect")
  let colors ← (List.range n).mapM (colorUnder space d)
  let positions ← Value.toNumbers (← d.required Dictionary.items? "Stops")
  if positions.length = colors.length then
    .ok ⟨kind, space, rectangle, positions.zipWith ColorStop.mk colors⟩
  else .error (.componentCount "pattern /Stops" colors.length positions.length)

theorem ofDictionary_eq_ofColors (hn : IsLeast {i | d.find? (colorKey i) = none} n) :
    ofDictionary kind space d = ofColors kind space n d := by
  have hrect (i : Nat) : (d.erase "Rect").find? (colorKey i) = d.find? (colorKey i) := by
    rw [Table.find?_erase, if_neg (colorKey_ne i).1]
  have hcolors : takeColors space 0 (d.erase "Rect") = _ :=
    takeColors_eq (m := n) (fun i _ => hrect i)
      (fun i _ hi h => Nat.not_le_of_lt hi (by simpa using hn.2 h)) (by simpa using hn.1)
  rw [← List.range_eq_range'] at hcolors
  have hstops : ((List.range n).foldl (fun (d : Dictionary) i => d.erase (colorKey i))
      (d.erase "Rect")).find? "Stops" = d.find? "Stops" := by
    rw [find?_foldl_erase fun i _ => (colorKey_ne i).2.symm, Table.find?_erase, if_neg (by decide)]
  rw [ofDictionary, ofColors, hcolors]
  cases (List.range n).mapM (colorUnder space d) with
  | error e => rfl
  | ok colors =>
    simp only [Except.map, bind, Except.bind, Dictionary.required_items_congr hstops]

theorem ofColors_congr (hrect : d'.find? "Rect" = d.find? "Rect")
    (hcolors : ∀ i < n, d'.find? (colorKey i) = d.find? (colorKey i))
    (hstops : d'.find? "Stops" = d.find? "Stops") :
    ofColors kind space n d' = ofColors kind space n d := by
  rw [ofColors, ofColors, Dictionary.required_items_congr hrect,
    Dictionary.required_items_congr hstops,
    mapM_congr fun i hi => colorUnder_congr (hcolors i (List.mem_range.mp hi))]

theorem zipWith_eq_iff {positions : List Float32} {colors : List Color} {stops : List ColorStop}
    (h : positions.length = colors.length) : positions.zipWith ColorStop.mk colors = stops ↔
      positions = stops.map ColorStop.position ∧ colors = stops.map ColorStop.color := by
  constructor
  · rintro rfl
    rw [← List.map_uncurry_zip_eq_zipWith, List.map_map, List.map_map]
    exact ⟨(List.map_fst_zip h.le).symm, (List.map_snd_zip h.ge).symm⟩
  · rintro ⟨rfl, rfl⟩
    rw [List.zipWith_map, List.zipWith_self, List.map_id']

theorem mapM_colorUnder_eq_ok {stops : List ColorStop} :
    (List.range stops.length).mapM (colorUnder space d) = .ok (stops.map ColorStop.color) ↔
      (∀ stop ∈ stops, stop.color.space = space) ∧
        ∀ s ∈ stops.zipIdx, d.find? (colorKey s.2) = some (.ofNumbers s.1.color.components) := by
  have hindices : List.range stops.length = stops.zipIdx.map Prod.snd := by
    rw [List.zipIdx_map_snd, List.range_eq_range']
  have hstops : stops.map ColorStop.color = stops.zipIdx.map fun s => s.1.color := by
    conv_lhs => rw [← List.zipIdx_map_fst 0 stops, List.map_map]
    rfl
  have hspaces : (∀ stop ∈ stops, stop.color.space = space) ↔
      ∀ s ∈ stops.zipIdx, s.1.color.space = space := by
    conv_lhs => rw [← List.zipIdx_map_fst 0 stops, List.forall_mem_map]
  rw [hindices, hstops, hspaces, mapM_eq_ok, List.forall₂_map_left_iff, List.forall₂_map_right_iff,
    List.forall₂_same, ← forall₂_and]
  simp only [colorUnder_eq_ok]

theorem forall_mem_entries {P : String × Value → Prop} : (∀ e ∈ p.entries, P e) ↔
    P ("Rect", .ofNumbers [p.rectangle.left, p.rectangle.bottom, p.rectangle.width,
        p.rectangle.height]) ∧
      (∀ s ∈ p.stops.zipIdx, P (colorKey s.2, .ofNumbers s.1.color.components)) ∧
      P ("Stops", .ofNumbers (p.stops.map ColorStop.position)) := by
  simp only [entries, List.forall_mem_cons, List.forall_mem_append, List.forall_mem_map,
    List.not_mem_nil, false_implies, implies_true, and_true]

/-- A pattern is read from every dictionary with its entries, and from no other. -/
theorem ofColors_eq_ok : ofColors kind space n d = .ok p ↔
    p.kind = kind ∧ p.space = space ∧ p.stops.length = n ∧
      (∀ stop ∈ p.stops, stop.color.space = space) ∧ ∀ e ∈ p.entries, d.find? e.1 = some e.2 := by
  simp only [ofColors, bind_eq_ok, Dictionary.required_items_eq_ok, Rectangle.ofValues_eq_ok,
    Value.toNumbers_eq_ok, forall_mem_entries]
  constructor
  · rintro ⟨_, hrect, rectangle, rfl, colors, hcolors, _, hpositions, positions, rfl, h⟩
    split at h
    · next hlength =>
      cases h
      obtain rfl : n = colors.length := by simpa using (mapM_eq_ok.mp hcolors).length_eq
      generalize hstops : positions.zipWith ColorStop.mk colors = stops
      obtain ⟨rfl, rfl⟩ := (zipWith_eq_iff hlength).mp hstops
      rw [List.length_map] at hcolors ⊢
      obtain ⟨hspaces, hentries⟩ := mapM_colorUnder_eq_ok.mp hcolors
      exact ⟨rfl, rfl, rfl, hspaces, hrect, hentries, hpositions⟩
    · cases h
  · obtain ⟨_, _, rectangle, stops⟩ := p
    rintro ⟨rfl, rfl, rfl, hspaces, hrect, hcolors, hpositions⟩
    refine ⟨_, hrect, rectangle, rfl, _, mapM_colorUnder_eq_ok.mpr ⟨hspaces, hcolors⟩, _,
      hpositions, _, rfl, ?_⟩
    rw [if_pos (by simp), (zipWith_eq_iff (by simp)).mpr ⟨rfl, rfl⟩]

theorem exists_ofColors_eq_ok : (∃ p, ofColors kind space n d = .ok p) ↔
    d.HasNumbers "Rect" 4 ∧ (∀ i < n, d.HasNumbers (colorKey i) space.componentCount) ∧
      d.HasNumbers "Stops" n := by
  simp only [ofColors, bind_eq_ok, Dictionary.required_items_eq_ok, Rectangle.ofValues_eq_ok,
    Value.toNumbers_eq_ok]
  constructor
  · rintro ⟨p, _, hrect, rectangle, rfl, colors, hcolors, _, hpositions, positions, rfl, h⟩
    split at h
    · next hlength =>
      obtain rfl : n = colors.length := by simpa using (mapM_eq_ok.mp hcolors).length_eq
      exact ⟨⟨_, rfl, hrect⟩, fun i hi => exists_colorUnder_eq_ok.mp
        (exists_mapM_eq_ok.mp ⟨colors, hcolors⟩ i (List.mem_range.mpr hi)),
        ⟨positions, hlength, hpositions⟩⟩
    · cases h
  · rintro ⟨⟨numbers, hfour, hrect⟩, hcolors, ⟨positions, rfl, hpositions⟩⟩
    obtain ⟨colors, hcolors⟩ := exists_mapM_eq_ok.mpr fun i hi =>
      exists_colorUnder_eq_ok.mpr (hcolors i (List.mem_range.mp hi))
    have hlength : positions.length = colors.length := by
      simpa using (mapM_eq_ok.mp hcolors).length_eq
    obtain ⟨left, bottom, width, height, rfl⟩ : ∃ a b c e, numbers = [a, b, c, e] :=
      List.length_eq_four.mp hfour
    exact ⟨_, _, hrect, ⟨left, bottom, width, height⟩, rfl, colors, hcolors, _, hpositions,
      positions, rfl, if_pos hlength⟩

/-- The colours end at a key that is not there, as there are no more colours than entries. -/
theorem exists_isLeast_missing (d : Dictionary) :
    ∃ n ≤ d.size, IsLeast {i | d.find? (colorKey i) = none} n := by
  have hmissing : ∃ i ≤ d.size, d.find? (colorKey i) = none := by
    by_contra! h
    have hkeys : (List.range (d.size + 1)).map colorKey ⊆ d.keys := by
      intro key hkey
      obtain ⟨i, hi, rfl⟩ := List.mem_map.mp hkey
      have hle := Nat.lt_succ_iff.mp (List.mem_range.mp hi)
      obtain ⟨v, hv⟩ := Option.ne_none_iff_exists'.mp (h i hle)
      exact Table.mem_keys hv
    have hlength := (nodup_colorKeys (d.size + 1)).length_le_of_subset hkeys
    simp [Table.keys, Table.size] at hlength
  obtain ⟨i, hi, hnone⟩ := hmissing
  have hexists : ∃ i, d.find? (colorKey i) = none := ⟨i, hnone⟩
  exact ⟨Nat.find hexists, (Nat.find_min' hexists hnone).trans hi, Nat.find_spec hexists,
    fun j hj => Nat.find_min' hexists hj⟩

/-- A dictionary describes a pattern exactly if it has the numbers of one, where the first colour
that is missing says how many colours there are; no other entry counts. -/
theorem reads_entries (kind : PatternKind) (space : ColorSpace) (d : Dictionary) :
    ∃ n ≤ d.size, IsLeast {i | d.find? (colorKey i) = none} n ∧
      ((∃ p, ofDictionary kind space d = .ok p) ↔
        d.HasNumbers "Rect" 4 ∧ (∀ i < n, d.HasNumbers (colorKey i) space.componentCount) ∧
          d.HasNumbers "Stops" n) ∧
      (∀ p, ofDictionary kind space d = .ok p →
        p.kind = kind ∧ p.space = space ∧ p.stops.length = n ∧
          (∀ stop ∈ p.stops, stop.color.space = space) ∧
          ∀ e ∈ p.entries, d.find? e.1 = some e.2) ∧
      ∀ d' : Dictionary, d'.find? "Rect" = d.find? "Rect" →
        (∀ i ≤ n, d'.find? (colorKey i) = d.find? (colorKey i)) →
        d'.find? "Stops" = d.find? "Stops" →
        ofDictionary kind space d' = ofDictionary kind space d := by
  obtain ⟨n, hsize, hn⟩ := exists_isLeast_missing d
  rw [ofDictionary_eq_ofColors hn]
  refine ⟨n, hsize, hn, exists_ofColors_eq_ok, fun p hp => ofColors_eq_ok.mp hp, ?_⟩
  intro d' hrect hcolors hstops
  have hn' : IsLeast {i | d'.find? (colorKey i) = none} n := by
    refine ⟨(hcolors n le_rfl).trans hn.1, fun i hi => ?_⟩
    by_contra! hlt
    exact Nat.not_le_of_lt hlt (hn.2 ((hcolors i hlt.le).symm.trans hi))
  rw [ofDictionary_eq_ofColors hn']
  exact ofColors_congr hrect (fun i hi => hcolors i hi.le) hstops

end Pattern

end PageScript
