import Mathlib.Data.List.DropRight
import PageScript.Operation

/-!
# Taken operands

An operator takes its operands if and only if the whole stack fits one of its signatures. Otherwise
the error tells what is left of the stack, which is always a lower part of it.

Stacks are written here with the top last, as operands are in a script.
-/
namespace PageScript

/-- The last values are of the kinds of the signature. -/
def AcceptsLast (signature : List ValueKind) (values : List Value) : Prop :=
  ∃ below last, values = below ++ last ∧ Accepts signature last

namespace Operation

/-- The ways in which an operator refuses a stack, with the error and with what is left. -/
inductive Refused (op : Operator) (values : List Value) : ScriptError → List Value → Prop where
  | tooFew {signature : List ValueKind} (only : op.signatures = [signature])
      (short : values.length < signature.length) :
      Refused op values (.insufficientOperands op signature.length values.length) values
  /-- The operands are gone. The error names the first of them that is not of its kind. -/
  | wrongKind {signature : List ValueKind} {left taken : List Value} {position : Nat}
      {expected : ValueKind} {found : Option ValueKind} (only : op.signatures = [signature])
      (split : values = left ++ taken) (length : taken.length = signature.length)
      (before : Accepts (signature.take position) (taken.take position))
      (expects : signature[position]? = some expected)
      (finds : (taken.map Value.kind)[position]? = some found) (differs : found ≠ some expected) :
      Refused op values (.operandKind op position expected found) left
  | noneFits {longest : List ValueKind} (several : 1 < op.signatures.length)
      (mem : longest ∈ op.signatures) (le : ∀ s ∈ op.signatures, s.length ≤ longest.length)
      (none : ∀ s ∈ op.signatures, ¬ AcceptsLast s values) :
      Refused op values (.noSignature op ((values.rtake longest.length).map Value.kind)) values
  /-- The operands of the longest signature that fits the last values are gone. -/
  | leftOver {signature : List ValueKind} {left taken : List Value} (mem : signature ∈ op.signatures)
      (split : values = left ++ taken) (accepts : Accepts signature taken)
      (longest : ∀ s ∈ op.signatures, AcceptsLast s values → s.length ≤ signature.length)
      (more : left ≠ []) :
      Refused op values (.unconsumedOperands op left.length) left

/-- What taking operands comes to: all of the stack is taken, or it is refused. -/
def Taken (op : Operator) (values : List Value) : Except ScriptError Operation × List Value → Prop
  | (.ok o, left) => o.operator = op ∧ o.operands = values ∧ left = []
  | (.error e, left) => Refused op values e left.reverse

variable {op : Operator} {values : List Value} {signature : List ValueKind}

theorem top_reverse (n : Nat) (values : List Value) : top n values.reverse = values.rtake n :=
  (List.rtake_eq_reverse_take_reverse values n).symm

theorem drop_reverse (n : Nat) (values : List Value) :
    values.reverse.drop n = (values.rdrop n).reverse := by
  rw [List.rdrop_eq_reverse_drop_reverse, List.reverse_reverse]

theorem rdrop_append_rtake (n : Nat) (values : List Value) :
    values.rdrop n ++ values.rtake n = values :=
  List.take_append_drop _ values

/-- The last values that can fit a signature are as many as it has kinds. -/
theorem acceptsLast_iff : AcceptsLast signature values ↔
    Accepts signature (values.rtake signature.length) := by
  constructor
  · rintro ⟨below, last, rfl, ha⟩
    rw [← ha.length_eq, List.rtake, List.length_append, Nat.add_sub_cancel, List.drop_left]
    exact ha
  · exact fun ha => ⟨_, _, (rdrop_append_rtake signature.length values).symm, ha⟩

/-- What the first mismatch tells: the kinds before it are right, and that one is not. -/
theorem firstMismatch_eq_some {start : Nat} {e : ScriptError}
    (hl : values.length = signature.length)
    (h : firstMismatch op start signature values = some e) :
    ∃ position expected found, e = .operandKind op (start + position) expected found ∧
      Accepts (signature.take position) (values.take position) ∧
      signature[position]? = some expected ∧ (values.map Value.kind)[position]? = some found ∧
      found ≠ some expected := by
  induction signature generalizing start values with
  | nil => cases h
  | cons kind signature ih =>
    obtain ⟨v, values, rfl⟩ := List.exists_cons_of_length_eq_add_one hl
    rw [firstMismatch] at h
    split at h
    · next hkind =>
      obtain ⟨position, expected, found, he, hbefore, hexpects, hfinds, hdiffers⟩ :=
        ih (Nat.succ.inj hl) h
      refine ⟨position + 1, expected, found, ?_, ?_, hexpects, hfinds, hdiffers⟩
      · rw [he, Nat.add_right_comm, Nat.add_assoc]
      · exact accepts_cons_cons.mpr ⟨hkind, hbefore⟩
    · next hkind => exact ⟨0, kind, v.kind, (Option.some.inj h).symm, rfl, rfl, rfl, hkind⟩

/-- Operands that fit are all of the stack, or are taken from above the rest of it. -/
theorem taken_complete {o : Operation} (hop : o.operator = op) (mem : signature ∈ op.signatures)
    (longest : ∀ s ∈ op.signatures, AcceptsLast s values → s.length ≤ signature.length)
    (ha : AcceptsLast signature values) (ho : o.operands = values.rtake signature.length) :
    Taken op values (complete o (values.rdrop signature.length).reverse) := by
  have hsplit := rdrop_append_rtake signature.length values
  unfold complete
  split
  · next hempty =>
    rw [List.isEmpty_iff, List.reverse_eq_nil_iff] at hempty
    rw [hempty, List.nil_append] at hsplit
    exact ⟨hop, ho.trans hsplit, rfl⟩
  · next hmore =>
    rw [List.isEmpty_iff, List.reverse_eq_nil_iff] at hmore
    rw [hop, List.length_reverse, Taken, List.reverse_reverse]
    exact .leftOver mem hsplit.symm (acceptsLast_iff.mp ha) longest hmore

theorem taken_takeOnly (only : op.signatures = [signature]) (mem : signature ∈ op.signatures) :
    Taken op values (takeOnly op signature values.reverse mem) := by
  have hsplit := rdrop_append_rtake signature.length values
  unfold takeOnly
  split
  · next hle =>
    rw [List.length_reverse] at hle
    have hlength : (values.rtake signature.length).length = signature.length := by
      rw [List.rtake, List.length_drop]
      omega
    split
    · next e hm =>
      rw [top_reverse] at hm
      obtain ⟨position, expected, found, rfl, hbefore, hexpects, hfinds, hdiffers⟩ :=
        firstMismatch_eq_some hlength hm
      rw [drop_reverse, Taken, List.reverse_reverse, Nat.zero_add]
      exact .wrongKind only hsplit.symm hlength hbefore hexpects hfinds hdiffers
    · next hm =>
      rw [top_reverse] at hm
      rw [drop_reverse]
      refine taken_complete rfl mem (fun s hs _ => ?_)
        (acceptsLast_iff.mpr (accepts_of_firstMismatch hm hlength)) (top_reverse ..)
      rw [only, List.mem_singleton] at hs
      rw [hs]
  · next hlt =>
    rw [List.length_reverse] at hlt ⊢
    rw [Taken, List.reverse_reverse]
    exact .tooFew only (Nat.lt_of_not_le hlt)

theorem one_lt_signatures (h : ∀ signature, op.signatures ≠ [signature]) :
    1 < op.signatures.length := by
  cases op <;> first | decide | exact absurd rfl (h _)

theorem taken_takeAny (several : 1 < op.signatures.length) :
    Taken op values (takeAny op values.reverse) := by
  have hfits (s : List ValueKind) :
      decide (Accepts s (top s.length values.reverse)) = true ↔ AcceptsLast s values := by
    rw [decide_eq_true_iff, top_reverse, acceptsLast_iff]
  unfold takeAny
  split
  · next signature hfind =>
    obtain ⟨hfit, before, after, hsplit, hbefore⟩ := List.find?_eq_some_iff_append.mp hfind
    rw [drop_reverse]
    refine taken_complete rfl (List.mem_of_find?_eq_some hfind) (fun s hs ha => ?_)
      ((hfits _).mp hfit) (top_reverse ..)
    have hsorted := sorted_signatures op
    rw [hsplit] at hs hsorted
    rcases List.mem_append.mp hs with hs | hs
    · exact absurd ((hfits s).mpr ha) (by simpa using hbefore s hs)
    · rcases List.mem_cons.mp hs with rfl | hs
      · exact Nat.le_refl _
      · exact (List.pairwise_cons.mp (List.pairwise_append.mp hsorted).2.1).1 s hs
  · next hfind =>
    have hnone : ∀ s ∈ op.signatures, ¬ AcceptsLast s values := fun s hs ha =>
      List.find?_eq_none.mp hfind s hs ((hfits s).mpr ha)
    have hsorted := sorted_signatures op
    obtain ⟨longest, more, hsigs⟩ := List.exists_cons_of_length_pos (Nat.lt_trans Nat.one_pos several)
    rw [hsigs] at hsorted
    have hle : ∀ s ∈ op.signatures, s.length ≤ longest.length := by
      rw [hsigs]
      exact List.forall_mem_cons.mpr ⟨Nat.le_refl _, (List.pairwise_cons.mp hsorted).1⟩
    have hhead : (op.signatures.head?.map List.length).getD 0 = longest.length := by
      rw [hsigs]
      rfl
    dsimp only
    rw [hhead, top_reverse, Taken, List.reverse_reverse]
    exact .noneFits several (by simp [hsigs]) hle hnone

theorem taken_take (op : Operator) (values : List Value) :
    Taken op values (take op values.reverse) := by
  unfold take
  split
  · next signature only => exact taken_takeOnly only _
  · next hseveral => exact taken_takeAny (one_lt_signatures hseveral)

/-- An operator takes a stack if and only if the kinds of its values, all of them, are one of the
signatures. Then the operands are the whole stack; otherwise a lower part of it is left. -/
theorem takes_whole_stack (op : Operator) (values : List Value) :
    ((take op values.reverse).1.isOk ↔ ∃ signature ∈ op.signatures, Accepts signature values) ∧
      (take op values.reverse).2.reverse <+: values ∧
      Taken op values (take op values.reverse) := by
  have htaken := taken_take op values
  refine ⟨⟨fun hok => ?_, ?_⟩, ?_, htaken⟩
  · generalize take op values.reverse = result at hok htaken
    obtain ⟨_ | o, left⟩ := result
    · cases hok
    · obtain ⟨hop, hoperands, -⟩ := htaken
      rw [← hop, ← hoperands]
      exact o.accepted
  · rintro ⟨signature, hs, ha⟩
    obtain ⟨o, ho, -⟩ := take_of_accepts hs ha
    rw [ho]
    rfl
  · rw [← List.reverse_suffix, List.reverse_reverse]
    exact take_suffix op values.reverse

end Operation

end PageScript
