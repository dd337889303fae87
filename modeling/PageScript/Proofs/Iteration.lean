import PageScript.Proofs.SideBySide

/-!
# Reading item by item

Whoever asks a reader for one statement after the other gets at most one for each byte of the
script. An error is the last that there is to get.
-/
namespace PageScript

/-- A reader that is asked for its statements, and whether it has come to its end or an error. -/
structure Iteration where
  reader : Reader
  finished : Bool := false

namespace Iteration

/-- The next statement or error, if there is one. -/
def next (it : Iteration) : Option (Except StatementError Statement) × Iteration :=
  if it.finished then (none, it)
  else
    match it.reader.readStatement with
    | (.ok (some s), r) => (some (.ok s), ⟨r, false⟩)
    | (.ok none, r) => (none, ⟨r, true⟩)
    | (.error e, r) => (some (.error e), ⟨r, true⟩)

def after (it : Iteration) : Nat → Iteration
  | 0 => it
  | n + 1 => (it.after n).next.2

def item (it : Iteration) (n : Nat) : Option (Except StatementError Statement) :=
  (it.after n).next.1

theorem after_next (it : Iteration) (n : Nat) : it.next.2.after n = it.after (n + 1) := by
  induction n with
  | zero => rfl
  | succ n ih => rw [after, ih]; rfl

theorem item_succ (it : Iteration) (n : Nat) : it.item (n + 1) = it.next.2.item n := by
  rw [item, item, after_next]

theorem item_finished (r : Reader) (n : Nat) : item ⟨r, true⟩ n = none := by
  induction n with
  | zero => rfl
  | succ n ih => rw [item_succ]; exact ih

/-- Asked one by one, a reader gives the whole document. -/
theorem item_eq (r : Reader) (n : Nat) : item ⟨r, false⟩ n = r.document[n]? := by
  fun_induction Reader.document r generalizing n with
  | case1 r s q hr _ ih =>
    have hnext : next ⟨r, false⟩ = (some (.ok s), ⟨q, false⟩) := by simp [next, hr]
    cases n with
    | zero => exact congrArg Prod.fst hnext
    | succ n => rw [item_succ, hnext, List.getElem?_cons_succ, ← ih]
  | case2 r q hr =>
    have hnext : next ⟨r, false⟩ = (none, ⟨q, true⟩) := by simp [next, hr]
    cases n with
    | zero => exact congrArg Prod.fst hnext
    | succ n => rw [item_succ, hnext, item_finished]; rfl
  | case3 r e q hr =>
    have hnext : next ⟨r, false⟩ = (some (.error e), ⟨q, true⟩) := by simp [next, hr]
    cases n with
    | zero => exact congrArg Prod.fst hnext
    | succ n => rw [item_succ, hnext, item_finished]; rfl

end Iteration

namespace Reader

variable {r q : Reader}

theorem Advance.stack_eq_nil {s : Option Statement} (h : r.Advance s q) : q.stack = [] := by
  cases h with
  | declaration _ _ empty => exact empty
  | graphics => rfl
  | page _ _ empty => exact empty
  | nextPage _ _ empty => exact empty
  | endPage _ empty => exact empty
  | finish _ empty => exact empty

/-- The reader is between two statements of a complete script. -/
structure Between (r : Reader) : Prop where
  complete : r.lexer.ending = .complete
  stack : r.stack = []

theorem Between.next {s : Option Statement} (h : r.Between)
    (hr : r.readStatement = (.ok s, q)) : q.Between := by
  have hbeside : r.Beside False r := ⟨rfl, h.complete, h.complete, .refl _⟩
  constructor
  · rcases both_readStatement hbeside with ⟨t, p, p', hp, -, hq, -⟩ | ⟨_, _, _, _, he, -⟩
    · obtain ⟨rfl, rfl⟩ : s = t ∧ q = p := by simpa using hr.symm.trans hp
      exact hq.lexer.complete
    · cases hr.symm.trans he
  · rcases r.readStatement_cases with ⟨t, rest, -, he⟩ | ⟨-, ⟨t, p, he, ha⟩ | ⟨e, p, he, -⟩⟩
    · obtain ⟨-, rfl⟩ : s = some t ∧ q = _ := by simpa using hr.symm.trans he
      exact h.stack
    · obtain ⟨-, rfl⟩ : s = t ∧ q = p := by simpa using hr.symm.trans he
      exact ha.stack_eq_nil
    · cases hr.symm.trans he

/-- Where nothing is outstanding a read finds the end. -/
theorem Between.readStatement_exhausted (h : r.Between) (hr : r.outstanding = 0) :
    ∃ q, r.readStatement = (.ok none, q) := by
  obtain ⟨hcomplete, hstack⟩ := h
  rcases r with ⟨lx, kinds, declared, context, stack, pending, pageOpen⟩
  obtain ⟨⟨hahead, rfl⟩, rfl⟩ : (lx.cursor.ahead = [] ∧ pending = []) ∧ pageOpen = false := by
    simpa [outstanding, Lexer.remaining] using hr
  obtain rfl : stack = [] := hstack
  have hupcoming : lx.upcoming = [] := by rw [Lexer.upcoming, hahead, significant_nil]
  obtain ⟨place, u, hfeed, -⟩ := Lexer.feed_complete (Operands.step kinds) Operands.atEnd
    ⟨[], .atValue []⟩ hcomplete
  rw [hupcoming] at hfeed
  have hrun := run_operands (r := ⟨lx, kinds, declared, context, [], [], false⟩) hfeed
  have hnext : ∃ q, nextStatement.run ⟨lx, kinds, declared, context, [], [], false⟩ =
      (.ok none, q) := by
    rw [nextStatement, Step.run_bind, hrun]
    exact ⟨_, rfl⟩
  obtain ⟨q, hq⟩ := hnext
  exact ⟨q, by simp [readStatement, hq]⟩

/-- Every item takes something of what is outstanding, an error too. -/
theorem Between.length_document_le (h : r.Between) : r.document.length ≤ r.outstanding := by
  fun_induction document r with
  | case1 r s q hr _ ih =>
    have hlt := outstanding_readStatement_lt hr
    have hle := ih (h.next hr)
    rw [List.length_cons]
    omega
  | case2 => exact Nat.zero_le _
  | case3 r e q hr =>
    -- With nothing outstanding the read would have found the end, and no error.
    refine Nat.pos_of_ne_zero fun hzero => ?_
    obtain ⟨q', hend⟩ := h.readStatement_exhausted hzero
    cases hr.symm.trans hend

/-- Nothing comes behind an error. -/
theorem error_last {i : Nat} {e : StatementError} (h : r.document[i]? = some (.error e)) :
    i + 1 = r.document.length := by
  fun_induction document r generalizing i with
  | case1 r s q hr _ ih =>
    cases i with
    | zero => cases h
    | succ i => rw [List.length_cons, ih h]
  | case2 => cases h
  | case3 r e q hr =>
    cases i with
    | zero => rfl
    | succ i => cases h

end Reader

/-- Asked for its statements one by one, the reader of a complete script gives at most as many items
as the script has bytes, and then no more. An error is the last item. -/
theorem items_bounded (o : LexerOptions) (bytes : List UInt8) :
    let it : Iteration := ⟨Reader.ofLexer (Lexer.start o .complete bytes), false⟩
    ∃ items : List (Except StatementError Statement), (∀ n, it.item n = items[n]?) ∧
      items.length ≤ bytes.length ∧
      ∀ i e, items[i]? = some (.error e) → i + 1 = items.length := by
  intro it
  have hbetween : it.reader.Between := ⟨rfl, rfl⟩
  exact ⟨it.reader.document, Iteration.item_eq it.reader, hbetween.length_document_le,
    fun i e => Reader.error_last⟩

end PageScript
