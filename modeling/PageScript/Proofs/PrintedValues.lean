import PageScript.Proofs.Printing
import PageScript.Proofs.TableKeys

/-!
# Values as they are read back

The tokens of a value lead from the place where the value may start to the place behind it, whatever
arrays and dictionaries it stands in.
-/
namespace PageScript

namespace Nesting

variable {kinds : Table ValueKind} {n n' : Nesting} {ts us : List Token} {p : Progress}

/-- From a nesting, all tokens but the last are steps on the way, and the last one comes to some
progress. -/
inductive Comes (kinds : Table ValueKind) : Nesting → List Token → Progress → Prop where
  | last {n : Nesting} (t : Token) : Comes kinds n [t] (n.step kinds t false)
  | step {n n' : Nesting} {t : Token} {ts : List Token} {p : Progress}
      (first : n.step kinds t false = .ok n') (rest : Comes kinds n' ts p) :
      Comes kinds n (t :: ts) p

theorem Comes.append (h : Comes kinds n ts (.ok n')) (h' : Comes kinds n' us p) :
    Comes kinds n (ts ++ us) p := by
  generalize hq : (.ok n' : Progress) = q at h
  induction h with
  | last => exact .step hq.symm h'
  | step first _ ih => exact .step first (ih hq)

theorem put_slash (d : Dictionary) (key : String) (v : Value) :
    d.put ("/" ++ key) v = d.insert key v := by
  have hbare : Dictionary.bareKey ("/" ++ key) = key := by
    simp [Dictionary.bareKey, Vocabulary.bare?]
  rw [Dictionary.put, hbare]

/-- Entries of a dictionary come to the dictionary if each of the values comes to itself. -/
theorem comes_pairs {pairs : List (String × Value)}
    (h : ∀ e ∈ pairs, ∀ frames, Comes kinds (.atValue frames) e.2.tokens (deliver e.2 frames))
    (done : Dictionary) (frames : List Frame) {ts : List Token} {p : Progress}
    (hrest : Comes kinds (.atKey (pairs.foldl (fun d e => d.insert e.1 e.2) done) frames) ts p) :
    Comes kinds (.atKey done frames) (Value.pairTokens pairs ++ ts) p := by
  induction pairs generalizing done with
  | nil => exact hrest
  | cons e pairs ih =>
    obtain ⟨hfirst, hmore⟩ := List.forall_mem_cons.mp h
    have hv := hfirst (.entry done ("/" ++ e.1) :: frames)
    rw [deliver, put_slash] at hv
    rw [Value.pairTokens, List.flatMap_cons, List.cons_append, List.cons_append, List.append_assoc]
    exact .step rfl (hv.append (ih hmore _ hrest))

mutual

/-- The tokens of a value come to the value in the place where it starts. -/
theorem comes_value (v : Value) (h : v.Readable kinds) (frames : List Frame) :
    Comes kinds (.atValue frames) v.tokens (deliver v frames) := by
  cases v with
  | array items =>
    have hend : Comes kinds (.atValue (.array (items.reverse ++ []) :: frames)) [.arrayEnd]
        (deliver (.array (items.reverse ++ []).reverse) frames) := .last .arrayEnd
    have hitems := comes_items items h [] frames hend
    rw [List.append_nil, List.reverse_reverse] at hitems
    exact .step rfl hitems
  | dictionary d =>
    have hentries : Comes kinds (.atKey ∅ frames)
        (Value.pairTokens d.entries ++ [.dictionaryEnd])
        (deliver (.dictionary (Table.ofList d.entries)) frames) :=
      comes_pairs (comes_entries d.sorted h) ∅ frames (.last .dictionaryEnd)
    rw [Table.ofList_entries, Table.entries, ← Value.entryTokens_eq] at hentries
    exact .step rfl hentries
  | «variable» x kind =>
    have hkind : kinds.find? x = kind := h
    subst hkind
    exact .last _
  | keyword text =>
    have hword : wordValue text = .keyword text := by
      rw [wordValue, if_neg h.1, if_neg h.2]
    have hlast : Comes kinds (.atValue frames) [.keyword text] (deliver (wordValue text) frames) :=
      .last (.keyword text)
    rwa [hword] at hlast
  | boolean b => cases b <;> exact .last _
  | number | string | name => exact .last _
termination_by structural v

theorem comes_items (items : List Value) (h : Value.ItemsReadable kinds items) (done : List Value)
    (frames : List Frame) {ts : List Token} {p : Progress}
    (hrest : Comes kinds (.atValue (.array (items.reverse ++ done) :: frames)) ts p) :
    Comes kinds (.atValue (.array done :: frames)) (Value.itemTokens items ++ ts) p := by
  cases items with
  | nil => exact hrest
  | cons v items =>
    rw [Value.itemTokens, List.append_assoc]
    have hv := comes_value v h.1 (.array done :: frames)
    exact hv.append (comes_items items h.2 _ _ (by simpa using hrest))
termination_by structural items

theorem comes_entries {low : Option String} (entries : Entries Value low)
    (h : Value.EntriesReadable kinds entries) : ∀ e ∈ entries.toList, ∀ frames,
      Comes kinds (.atValue frames) e.2.tokens (deliver e.2 frames) := by
  cases entries with
  | nil => exact nofun
  | cons key v _ rest =>
    exact List.forall_mem_cons.mpr ⟨comes_value v h.1, comes_entries rest h.2⟩
termination_by structural entries

end

/-- Entries of a dictionary that has begun come to the dictionary, in whatever order they stand. -/
theorem comes_dictionary {pairs : List (String × Value)} (h : ∀ e ∈ pairs, e.2.Readable kinds) :
    Comes kinds (.atKey ∅ []) (Value.pairTokens pairs ++ [.dictionaryEnd])
      (.error (.ok (.dictionary (Table.ofList pairs)))) :=
  comes_pairs (fun e he => comes_value e.2 (h e he)) ∅ [] (.last .dictionaryEnd)

/-- A feed stops behind the last token with what the tokens come to. -/
theorem Comes.feedOver {r : Except ScriptError Value} {atEnd : Nesting → Except ScriptError Value}
    {rest : List (Token × Bool)} (h : Comes kinds n ts (.error r)) :
    ∃ last, Lexer.feedOver (Nesting.step kinds) atEnd n (ts.map (·, false) ++ rest) =
      (r, last, rest) := by
  generalize hq : (.error r : Progress) = q at h
  induction h with
  | last t =>
    rw [List.map_singleton, List.singleton_append, Lexer.feedOver, ← hq]
    exact ⟨_, rfl⟩
  | step first _ ih =>
    rw [List.map_cons, List.cons_append, Lexer.feedOver, first]
    exact ih hq

end Nesting

namespace Reader.Operands

variable {kinds : Table ValueKind} {n n' : Nesting} {t : Token} {v : Value} {stack : List Value}

/-- Inside a value a run of operands moves on as the value does. -/
theorem step_within (h : n.step kinds t false = .ok n') :
    Operands.step kinds ⟨stack, n⟩ t false = .ok ⟨stack, n'⟩ := by
  unfold Operands.step
  split
  · next hn => cases hn; cases h
  · next hn => cases hn; cases h
  · next hn => cases hn; cases h
  · next hn => cases hn; cases h
  · simp only [h]

/-- A whole value goes on the stack. -/
theorem step_whole (h : n.step kinds t false = .error (.ok v)) (hv : v.kind ≠ some .keyword) :
    Operands.step kinds ⟨stack, n⟩ t false = .ok ⟨v :: stack, .atValue []⟩ := by
  have hword {text : String} (hn : n = .atValue []) (ht : t = .keyword text) :
      v = Nesting.wordValue text := by
    subst hn ht
    exact @Nesting.eq_of_deliver (Nesting.wordValue text) v [] h
  unfold Operands.step
  split
  · next hn =>
    subst hn
    simp [hword rfl rfl, Nesting.wordValue, Value.kind] at hv
  · next hn =>
    subst hn
    simp [hword rfl rfl, Nesting.wordValue]
  · next hn =>
    subst hn
    simp [hword rfl rfl, Nesting.wordValue]
  · next htrue hfalse hn =>
    subst hn
    simp [hword rfl rfl, Nesting.wordValue, if_neg htrue, if_neg hfalse, Value.kind] at hv
  · simp only [h]

theorem feedOver_value {ts : List Token} {rest : List (Token × Bool)}
    (h : Nesting.Comes kinds n ts (.error (.ok v))) (hv : v.kind ≠ some .keyword) :
    Lexer.feedOver (Operands.step kinds) Operands.atEnd ⟨stack, n⟩ (ts.map (·, false) ++ rest) =
      Lexer.feedOver (Operands.step kinds) Operands.atEnd ⟨v :: stack, .atValue []⟩ rest := by
  generalize hq : (.error (.ok v) : Nesting.Progress) = q at h
  induction h with
  | last t =>
    rw [List.map_singleton, List.singleton_append, Lexer.feedOver, step_whole hq.symm hv]
  | step first _ ih =>
    rw [List.map_cons, List.cons_append, Lexer.feedOver, step_within first]
    exact ih hq

/-- Values that are no keywords go on the stack one by one. -/
theorem feedOver_values {values : List Value} {rest : List (Token × Bool)}
    (h : Value.ItemsReadable kinds values) (hv : ∀ v ∈ values, v.kind ≠ some .keyword) :
    Lexer.feedOver (Operands.step kinds) Operands.atEnd ⟨stack, .atValue []⟩
        ((Value.itemTokens values).map (·, false) ++ rest) =
      Lexer.feedOver (Operands.step kinds) Operands.atEnd ⟨values.reverse ++ stack, .atValue []⟩
        rest := by
  induction values generalizing stack with
  | nil => rfl
  | cons v values ih =>
    obtain ⟨hfirst, hmore⟩ := List.forall_mem_cons.mp hv
    rw [Value.itemTokens, List.map_append, List.append_assoc,
      feedOver_value (Nesting.comes_value v h.1 []) hfirst, ih h.2 hmore]
    simp

end Reader.Operands

theorem Operator.keyword_notMem_signatures (op : Operator) :
    ∀ signature ∈ op.signatures, .keyword ∉ signature := by
  cases op <;> decide

/-- No operator takes a keyword. -/
theorem Operation.kind_ne_keyword (o : Operation) :
    ∀ v ∈ o.operands, v.kind ≠ some .keyword := by
  obtain ⟨signature, hs, ha⟩ := o.accepted
  intro v hv hk
  have hmem : v.kind ∈ signature.map some := by
    rw [← ha]
    exact List.mem_map_of_mem hv
  rw [hk] at hmem
  exact o.operator.keyword_notMem_signatures signature hs (by simpa using hmem)

end PageScript
