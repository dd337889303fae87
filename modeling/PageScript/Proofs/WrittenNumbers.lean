import PageScript.Proofs.TextBytes
import PageScript.Proofs.TextLimits
import PageScript.Proofs.TokenEnds

/-!
# Numbers as they are written

A number has a digit, a sign or a point and, behind it, digits and points, with one point in all at
the most. The lexer takes as many bytes of this kind as there are. They have a value if there is a
digit among them.
-/
namespace PageScript

namespace Numeral

/-- Bytes that may be taken for a number: a first one that starts a number, and digits and points,
with one point in all at the most. -/
def Written : List UInt8 → Prop
  | [] => False
  | first :: more => Byte.startsNumber first ∧ (∀ b ∈ more, Byte.isDigit b ∨ b = 0x2E) ∧
    (first :: more).count 0x2E ≤ 1

/-- The longest number with which some bytes begin. -/
structure Longest (own bytes : List UInt8) : Prop where
  isPrefix : own <+: bytes
  written : Written own
  longest : ∀ other, other <+: bytes → Written other → other.length ≤ own.length

variable {own behind bytes : List UInt8} {b : UInt8}

theorem Longest.unique {own' : List UInt8} (h : Longest own bytes) (h' : Longest own' bytes) :
    own = own' := by
  have hlength := Nat.le_antisymm (h'.longest own h.isPrefix h.written)
    (h.longest own' h'.isPrefix h'.written)
  exact (List.prefix_of_prefix_length_le h.isPrefix h'.isPrefix (Nat.le_of_eq hlength)).eq_of_length
    hlength

theorem written_singleton (h : Byte.startsNumber b) : Written [b] :=
  ⟨h, by simp, List.count_le_length⟩

/-- A number goes on with a digit, or with its first point. -/
theorem written_snoc (h : Written own) : Written (own ++ [b]) ↔
    Byte.isDigit b ∨ b = 0x2E ∧ 0x2E ∉ own := by
  cases own with
  | nil => exact h.elim
  | cons first more =>
    obtain ⟨hfirst, hmore, hcount⟩ := h
    have hpoint : (0x2E : UInt8) ∉ first :: more ↔ (first :: more).count 0x2E = 0 :=
      List.count_eq_zero.symm
    rw [List.cons_append, Written, ← List.cons_append, List.count_append, List.forall_mem_append,
      List.forall_mem_singleton, hpoint]
    by_cases hb : b = 0x2E
    · subst hb
      have hdigit : ¬ Byte.isDigit 0x2E := by decide
      rw [List.count_singleton_self]
      constructor
      · rintro ⟨-, -, hle⟩
        exact .inr ⟨rfl, by omega⟩
      · intro hb
        have hnone := (hb.resolve_left hdigit).2
        exact ⟨hfirst, ⟨hmore, .inr rfl⟩, by omega⟩
    · have hzero : List.count 0x2E [b] = 0 := List.count_eq_zero.mpr (by simpa using Ne.symm hb)
      simp only [hb, hzero, false_and, or_false, Nat.add_zero]
      exact ⟨fun hb => hb.2.1.2, fun hb => ⟨hfirst, ⟨hmore, hb⟩, hcount⟩⟩

theorem Written.of_append {more : List UInt8} (h : Written (own ++ more)) (hown : own ≠ []) :
    Written own := by
  obtain ⟨first, rest, rfl⟩ := List.exists_cons_of_ne_nil hown
  obtain ⟨hfirst, hmore, hcount⟩ := h
  refine ⟨hfirst, fun b hb => hmore b (List.mem_append_left _ hb), ?_⟩
  rw [List.append_eq, ← List.cons_append, List.count_append] at hcount
  omega

/-- A number that the byte behind it does not go on with is the longest one. -/
theorem longest_of_stops (h : Written own) (hstop : ∀ b ∈ behind.head?, ¬ Written (own ++ [b])) :
    Longest own (own ++ behind) := by
  refine ⟨List.prefix_append .., h, fun other hother hwritten => ?_⟩
  by_contra hlt
  obtain ⟨more, rfl⟩ : own <+: other :=
    List.prefix_of_prefix_length_le (List.prefix_append ..) hother (by omega)
  rw [List.prefix_append_right_inj] at hother
  cases more with
  | nil => simp at hlt
  | cons b more =>
    obtain ⟨rest, rfl⟩ := hother
    rw [List.append_cons] at hwritten
    exact hstop b rfl (hwritten.of_append (by simp))

end Numeral

namespace Scanner

open Numeral

variable {o : LexerOptions} {own : List UInt8} {b : UInt8}

/-- The scanner behind the first bytes of a number. -/
theorem numberStep_written (hz : o.zeroContinuesNumber) (h : Written own) (b : UInt8) :
    (Written (own ++ [b]) →
      (number own.toArray).step o b = .advance (.number (keep o own.toArray b))) ∧
    (¬ Written (own ++ [b]) →
      (number own.toArray).step o b = .finish (numberToken own.toArray)) := by
  rw [written_snoc h, step]
  by_cases hd : Byte.isDigit b
  · exact ⟨fun _ => numberStep_digit hd (.inl hz), fun hnot => absurd (.inl hd) hnot⟩
  by_cases hp : b = 0x2E
  · subst hp
    refine ⟨fun hgo => numberStep_point ?_, fun hnot => numberStep_second ?_⟩
    · simpa using (hgo.resolve_left hd).2
    · simpa [hd] using hnot
  · exact ⟨fun hgo => absurd (hgo.resolve_left hd).1 hp, fun _ => numberStep_other hd hp⟩

/-- A number that has begun goes on for as long as it may, if what it takes is within the limit. -/
theorem run_written (hz : o.zeroContinuesNumber) (h : Written own) (bytes : List UInt8) :
    ∃ more behind, bytes = more ++ behind ∧ Longest (own ++ more) (own ++ bytes) ∧
      ((own ++ more).length ≤ o.maxTokenLength ∨
        (run o (.number own.toArray) own.length bytes).length ≤ o.maxTokenLength →
          ∃ looks, run o (.number own.toArray) own.length bytes =
            ⟨numberToken (own ++ more).toArray, false, (own ++ more).length, behind, looks⟩) := by
  induction bytes generalizing own with
  | nil =>
    have hlongest := @longest_of_stops own [] h (by simp)
    refine ⟨[], [], rfl, by simpa using hlongest, fun _ => ⟨true, ?_⟩⟩
    simp [run, atEnd]
  | cons b bytes ih =>
    obtain ⟨hgo, hstop⟩ := numberStep_written (b := b) hz h
    by_cases hb : Written (own ++ [b])
    · obtain ⟨more, behind, rfl, hlongest, hrun⟩ := ih hb
      rw [← List.append_cons, ← List.append_cons] at hlongest
      refine ⟨b :: more, behind, rfl, hlongest, fun hfit => ?_⟩
      have hstep := @run_advance o own.length b (more ++ behind) _ _ (hgo hb)
      rw [hstep] at hfit ⊢
      have hlt : own.length < o.maxTokenLength := by
        rcases hfit with hfit | hfit
        · simp at hfit
          omega
        · exact Nat.lt_of_lt_of_le (le_length_run ..) hfit
      have hkeep : keep o own.toArray b = (own ++ [b]).toArray := by
        rw [keep_of_lt (by simpa using hlt)]
        simp
      rw [hkeep] at hfit ⊢
      simpa using hrun (by simpa using hfit)
    · have hlongest := @longest_of_stops own (b :: bytes) h (by simpa using hb)
      refine ⟨[], b :: bytes, rfl, by simpa using hlongest, fun _ => ⟨true, ?_⟩⟩
      simpa using run_finish (hstop hb)

theorem scan_starts (o : LexerOptions) (hb : Byte.startsNumber b) (hlimit : 0 < o.maxTokenLength)
    (rest : List UInt8) : scan o (b :: rest) = run o (.number #[b]) 1 rest := by
  have hkeep : keep o #[] b = #[b] := keep_of_lt hlimit
  have hbegin : Scanner.start.step o b = .advance (.number #[b]) := by
    rw [← hkeep]
    exact begin_number o hb
  exact run_advance hbegin

/-- Where a number may start there is a longest one, and it is read if it or what is read is within
the limit. -/
theorem scan_written (hz : o.zeroContinuesNumber) (hb : Byte.startsNumber b) (rest : List UInt8) :
    ∃ own behind, b :: rest = own ++ behind ∧ Longest own (b :: rest) ∧
      (own.length ≤ o.maxTokenLength ∨ (scan o (b :: rest)).length ≤ o.maxTokenLength →
        ∃ looks, scan o (b :: rest) =
          ⟨numberToken own.toArray, false, own.length, behind, looks⟩) := by
  obtain ⟨more, behind, rfl, hlongest, hrun⟩ := run_written hz (written_singleton hb) rest
  refine ⟨b :: more, behind, rfl, hlongest, fun hfit => ?_⟩
  have hlimit : 0 < o.maxTokenLength := by
    rcases hfit with hfit | hfit
    · exact Nat.zero_lt_of_lt hfit
    · exact Nat.lt_of_lt_of_le (scan_length_pos ..) hfit
  rw [scan_starts o hb hlimit] at hfit ⊢
  exact hrun hfit

/-- The longest number is read if it is within the limit. -/
theorem scan_longest {behind : List UInt8} (hz : o.zeroContinuesNumber)
    (h : Longest own (own ++ behind)) (hfit : own.length ≤ o.maxTokenLength) :
    ∃ looks, scan o (own ++ behind) =
      ⟨numberToken own.toArray, false, own.length, behind, looks⟩ := by
  obtain ⟨b, more, rfl, hb⟩ : ∃ b more, own = b :: more ∧ Byte.startsNumber b := by
    have hwritten := h.written
    cases own with
    | nil => exact hwritten.elim
    | cons b more => exact ⟨b, more, rfl, hwritten.1⟩
  obtain ⟨own', behind', heq, hlongest, hscan⟩ := scan_written hz hb (more ++ behind)
  obtain rfl := h.unique hlongest
  rw [← List.cons_append] at heq
  obtain rfl := List.append_cancel_left heq
  exact hscan (.inl hfit)

end Scanner

namespace Lexer

open Numeral Scanner

variable {lx : Lexer} {own behind : List UInt8}

theorem taken_append_ahead (hc : lx.ending = .complete) :
    lx.cursor.ahead = lx.taken ++ lx.read.2.cursor.ahead := by
  rw [taken_complete hc, cursor_read, List.take_append_drop]

theorem length_taken (hc : lx.ending = .complete) :
    lx.taken.length = (scan lx.options lx.cursor.ahead).length := by
  have hsum := length_rest_scan lx.options lx.cursor.ahead
  rw [taken_complete hc, List.length_take]
  omega

theorem read_of_scan {s : Scan} (hc : lx.ending = .complete)
    (hs : scan lx.options lx.cursor.ahead = s) : lx.taken = lx.cursor.ahead.take s.length ∧
      lx.read.1 = .ok s.token ∧ lx.read.2.unterminated = s.unterminated := by
  subst hs
  rw [taken_complete hc, read_complete hc]
  exact ⟨rfl, rfl, rfl⟩

end Lexer

end PageScript
