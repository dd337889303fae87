import PageScript.ScriptError

/-!
# Operations

An operator with its operands. An operator takes its operands from the top of a stack, and nothing
may be left below them.
-/
namespace PageScript

def Accepts (signature : List ValueKind) (values : List Value) : Prop :=
  values.map Value.kind = signature.map some

instance (signature : List ValueKind) (values : List Value) : Decidable (Accepts signature values) :=
  inferInstanceAs (Decidable (_ = _))

@[simp] theorem accepts_nil {values : List Value} : Accepts [] values ↔ values = [] :=
  List.map_eq_nil_iff

theorem accepts_cons {kind : ValueKind} {signature : List ValueKind} {values : List Value} :
    Accepts (kind :: signature) values ↔
      ∃ v rest, values = v :: rest ∧ v.kind = some kind ∧ Accepts signature rest :=
  List.map_eq_cons_iff

theorem accepts_cons_cons {kind : ValueKind} {signature : List ValueKind} {v : Value}
    {rest : List Value} :
    Accepts (kind :: signature) (v :: rest) ↔ v.kind = some kind ∧ Accepts signature rest := by
  simp [Accepts]

theorem Accepts.length_eq {signature : List ValueKind} {values : List Value}
    (h : Accepts signature values) : values.length = signature.length := by
  simpa using congrArg List.length h

/-- Operands are accepted by one list of kinds at most. -/
theorem Accepts.unique {signature signature' : List ValueKind} {values : List Value}
    (h : Accepts signature values) (h' : Accepts signature' values) : signature = signature' :=
  (List.map_inj_right fun _ _ => Option.some.inj).mp (h.symm.trans h')

/-- A variable among accepted operands has a kind. -/
theorem Accepts.kind_of_mem {signature : List ValueKind} {values : List Value} {x : String}
    {kind : Option ValueKind} (h : Accepts signature values) (hm : .variable x kind ∈ values) :
    ∃ k, kind = some k := by
  have hk : kind ∈ values.map Value.kind := List.mem_map.mpr ⟨_, hm, rfl⟩
  rw [h] at hk
  obtain ⟨k, -, hk⟩ := List.mem_map.mp hk
  exact ⟨k, hk.symm⟩

/-- An operator with operands of one of its signatures. -/
structure Operation where
  operator : Operator
  operands : List Value
  accepted : ∃ signature ∈ operator.signatures, Accepts signature operands

namespace Operation

/-- The first operand that is not of its kind, from a given position on. -/
def firstMismatch (op : Operator) (position : Nat) : List ValueKind → List Value → Option ScriptError
  | expected :: signature, value :: values =>
    if value.kind = some expected then firstMismatch op (position + 1) signature values
    else some (.operandKind op position expected value.kind)
  | _, _ => none

theorem accepts_of_firstMismatch {op : Operator} {position : Nat} {signature : List ValueKind}
    {values : List Value} (h : firstMismatch op position signature values = none)
    (hl : values.length = signature.length) : Accepts signature values := by
  induction signature generalizing position values with
  | nil => simp_all [Accepts]
  | cons expected signature ih =>
    cases values with
    | nil => simp at hl
    | cons value values =>
      rw [firstMismatch] at h
      split at h
      · next hk =>
        have := ih h (by simpa using hl)
        simp_all [Accepts]
      · cases h

/-- The last `n` operands of a stack with its top in front, in the order they were written. -/
def top (n : Nat) (stack : List Value) : List Value := (stack.take n).reverse

def complete (operation : Operation) (below : List Value) :
    Except ScriptError Operation × List Value :=
  if below.isEmpty then (.ok operation, [])
  else (.error (.unconsumedOperands operation.operator below.length), below)

/-- Takes operands for an operator with one signature, checking them one by one. -/
def takeOnly (op : Operator) (signature : List ValueKind) (stack : List Value)
    (h : signature ∈ op.signatures) : Except ScriptError Operation × List Value :=
  if hl : signature.length ≤ stack.length then
    match hm : firstMismatch op 0 signature (top signature.length stack) with
    | some e => (.error e, stack.drop signature.length)
    | none =>
      complete ⟨op, top signature.length stack, signature, h,
        accepts_of_firstMismatch hm (by simp [top, hl])⟩ (stack.drop signature.length)
  else (.error (.insufficientOperands op signature.length stack.length), stack)

/-- Takes operands for an operator with several signatures: the first that the top of the stack
fits, longest first. -/
def takeAny (op : Operator) (stack : List Value) : Except ScriptError Operation × List Value :=
  match h : op.signatures.find? fun s => decide (Accepts s (top s.length stack)) with
  | some signature =>
    complete ⟨op, top signature.length stack, signature, List.mem_of_find?_eq_some h,
      by simpa using List.find?_some h⟩ (stack.drop signature.length)
  | none =>
    let longest := (op.signatures.head?.map List.length).getD 0
    (.error (.noSignature op ((top longest stack).map Value.kind)), stack)

/-- Takes the operands of an operator off a stack with its top in front, and gives the stack that
is left. -/
def take (op : Operator) (stack : List Value) : Except ScriptError Operation × List Value :=
  match h : op.signatures with
  | [signature] => takeOnly op signature stack (by simp [h])
  | _ => takeAny op stack

/-- An operation takes the whole stack. -/
theorem complete_ok {operation o : Operation} {below rest : List Value}
    (h : complete operation below = (.ok o, rest)) : below = [] ∧ o = operation ∧ rest = [] := by
  unfold complete at h
  split at h
  · next hb => cases h; exact ⟨List.isEmpty_iff.mp hb, rfl, rfl⟩
  · cases h

theorem complete_snd (operation : Operation) (below : List Value) :
    (complete operation below).2 = below := by
  unfold complete
  split
  · next hb => exact (List.isEmpty_iff.mp hb).symm
  · rfl

theorem top_of_drop_eq_nil {n : Nat} {stack : List Value} (h : stack.drop n = []) :
    top n stack = stack.reverse := by
  rw [top, List.take_of_length_le (List.drop_eq_nil_iff.mp h)]

theorem take_ok {op : Operator} {stack rest : List Value} {o : Operation}
    (h : take op stack = (.ok o, rest)) :
    o.operator = op ∧ o.operands = stack.reverse ∧ rest = [] := by
  unfold take at h
  split at h
  · unfold takeOnly at h
    split at h
    · split at h
      · cases h
      · obtain ⟨hb, rfl, hr⟩ := complete_ok h
        exact ⟨rfl, top_of_drop_eq_nil hb, hr⟩
    · cases h
  · unfold takeAny at h
    split at h
    · obtain ⟨hb, rfl, hr⟩ := complete_ok h
      exact ⟨rfl, top_of_drop_eq_nil hb, hr⟩
    · cases h

theorem firstMismatch_eq_none {op : Operator} {position : Nat} {signature : List ValueKind}
    {values : List Value} (h : Accepts signature values) :
    firstMismatch op position signature values = none := by
  induction signature generalizing position values with
  | nil => rfl
  | cons kind signature ih =>
    obtain ⟨v, rest, rfl, hk, ha⟩ := accepts_cons.mp h
    rw [firstMismatch, if_pos hk]
    exact ih ha

/-- No signature of an operator is followed by a longer one. -/
theorem sorted_signatures (op : Operator) :
    op.signatures.Pairwise fun s t => t.length ≤ s.length := by
  cases op <;> decide

theorem top_length_reverse (values : List Value) : top values.length values.reverse = values := by
  rw [top, List.take_of_length_le (by simp), List.reverse_reverse]

/-- The signature that the top of a stack fits first is the one that all of the stack fits. -/
theorem find_signature {signatures : List (List ValueKind)} {signature : List ValueKind}
    {values : List Value} (sorted : signatures.Pairwise fun s t => t.length ≤ s.length)
    (hs : signature ∈ signatures) (ha : Accepts signature values) :
    ∃ s, (signatures.find? fun s => decide (Accepts s (top s.length values.reverse))) = some s ∧
      s.length = values.length := by
  induction signatures with
  | nil => cases hs
  | cons first signatures ih =>
    obtain ⟨hfirst, hrest⟩ := List.pairwise_cons.mp sorted
    rw [List.find?_cons]
    split
    · next hd =>
      refine ⟨first, rfl, Nat.le_antisymm ?_ ?_⟩
      · have := (of_decide_eq_true hd).length_eq
        simp only [top, List.length_reverse, List.length_take] at this
        omega
      · rw [ha.length_eq]
        rcases List.mem_cons.mp hs with rfl | hs
        · exact Nat.le_refl _
        · exact hfirst signature hs
    · next hd =>
      rcases List.mem_cons.mp hs with rfl | hs
      · refine absurd (decide_eq_true ?_) (Bool.not_eq_true _ ▸ hd)
        rw [← ha.length_eq, top_length_reverse]
        exact ha
      · exact ih hrest hs

/-- Operands that fit a signature of an operator are taken, all of them. -/
theorem take_of_accepts {op : Operator} {signature : List ValueKind} {values : List Value}
    (hs : signature ∈ op.signatures) (ha : Accepts signature values) :
    ∃ o, take op values.reverse = (.ok o, []) ∧ o.operands = values := by
  suffices ∃ o, take op values.reverse = (.ok o, []) by
    obtain ⟨o, ho⟩ := this
    exact ⟨o, ho, by rw [(take_ok ho).2.1, List.reverse_reverse]⟩
  have hdrop : values.reverse.drop values.length = [] := List.drop_of_length_le (by simp)
  unfold take
  split
  · next only h =>
    obtain rfl : signature = only := List.mem_singleton.mp (h ▸ hs)
    have hl := ha.length_eq
    unfold takeOnly
    rw [dif_pos (by simp [hl])]
    split
    · next e hm => simp [← hl, top_length_reverse, firstMismatch_eq_none ha] at hm
    · simp [complete, ← hl, hdrop]
  · obtain ⟨s, hf, hl⟩ := find_signature (sorted_signatures op) hs ha
    unfold takeAny
    split
    · next s' hf' =>
      obtain rfl : s' = s := Option.some.inj (hf'.symm.trans hf)
      simp [complete, hl, hdrop]
    · next hf' => cases hf'.symm.trans hf

/-- Operands are only taken off the top. -/
theorem take_suffix (op : Operator) (stack : List Value) : (take op stack).2 <:+ stack := by
  unfold take
  split
  · unfold takeOnly
    split
    · split
      · exact List.drop_suffix _ _
      · rw [complete_snd]; exact List.drop_suffix _ _
    · exact List.suffix_refl _
  · unfold takeAny
    split
    · rw [complete_snd]; exact List.drop_suffix _ _
    · exact List.suffix_refl _

end Operation

end PageScript
