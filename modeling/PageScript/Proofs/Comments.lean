import PageScript.Proofs.TextLimits
import PageScript.Proofs.TokenEnds

/-!
# Comments

A comment goes on to the first line end of two bytes, or to the end of the script. Its text is what
the limit keeps of the bytes before. The carriage return of the line end is kept like any other byte
and taken off again; where the limit has left it out, a carriage return of the comment itself may be
taken for it.
-/
namespace PageScript

namespace Comment

/-- The line end that closes a comment, a carriage return and a line feed. -/
def lineEnd : List UInt8 := [0x0D, 0x0A]

/-- The limit leaves out the line end, and what it keeps of the comment ends with a carriage
return. -/
def LosesReturn (limit : Nat) (body : List UInt8) : Prop :=
  limit ≤ body.length ∧ (body.take limit).getLast? = some 0x0D

instance (limit : Nat) (body : List UInt8) : Decidable (LosesReturn limit body) :=
  inferInstanceAs (Decidable (_ ∧ _))

/-- The text of a closed comment. -/
def closedText (limit : Nat) (body : List UInt8) : List UInt8 :=
  if LosesReturn limit body then body.take (limit - 1) else body.take limit

theorem LosesReturn.pos {limit : Nat} {body : List UInt8} (h : LosesReturn limit body) :
    0 < limit := by
  rcases Nat.eq_zero_or_pos limit with rfl | hpos
  · simp [LosesReturn] at h
  · exact hpos

/-- A carriage return that is lost is missing from the text. -/
theorem closedText_eq_iff {limit : Nat} {body : List UInt8} :
    closedText limit body = body.take limit ↔ ¬ LosesReturn limit body := by
  unfold closedText
  split
  · next h =>
    have hpos := h.pos
    have hle := h.1
    refine iff_of_false (fun heq => ?_) (not_not_intro h)
    have hlength := congrArg List.length heq
    simp only [List.length_take] at hlength
    omega
  · next h => exact iff_of_true rfl h

end Comment

namespace Scanner

open Comment

variable {o : LexerOptions}

/-- The scanner behind the first bytes of a comment. -/
def inComment (o : LexerOptions) (own : List UInt8) : Scanner :=
  .comment (own.take o.maxTokenLength).toArray (own.getLast? == some 0x0D)

theorem lineEnd_suffix_iff {own : List UInt8} {b : UInt8} :
    lineEnd <:+ own ++ [b] ↔ b = 0x0A ∧ own.getLast? = some 0x0D := by
  rw [lineEnd, lineEnd_suffix, List.singleton_suffix_iff_getLast?_eq_some]

/-- A byte of a comment closes it, or is one more of its bytes. -/
theorem step_inComment (own : List UInt8) (b : UInt8) : (inComment o own).step o b =
    if lineEnd <:+ own ++ [b] then .finishAfter (lineToken (own.take o.maxTokenLength).toArray)
    else .advance (inComment o (own ++ [b])) := by
  simp [inComment, step, commentStep, lineEnd_suffix_iff, keep_take]

/-- What is kept of a closed comment still has the carriage return of the line end, unless the limit
has left that out. -/
theorem lineToken_take (limit : Nat) (body : List UInt8) :
    lineToken ((body ++ [0x0D]).take limit).toArray = .comment (closedText limit body) := by
  unfold lineToken closedText
  rw [List.back?_toArray, List.pop_toArray]
  rcases Nat.lt_or_ge body.length limit with hlt | hle
  · have hall : (body ++ [0x0D]).take limit = body ++ [0x0D] :=
      List.take_of_length_le (by simp; omega)
    have hkept : ¬ LosesReturn limit body := fun h => Nat.not_le_of_lt hlt h.1
    simp [hall, hkept, List.take_of_length_le (Nat.le_of_lt hlt)]
  · have hcut : (body ++ [0x0D]).take limit = body.take limit := List.take_append_of_le_length hle
    have hlast : (body.take limit).dropLast = body.take (limit - 1) := by
      rw [List.dropLast_eq_take, List.take_take, List.length_take]
      congr 1
      omega
    by_cases h : (body.take limit).getLast? = some 0x0D
    · simp [hcut, h, hlast, LosesReturn, hle]
    · simp [hcut, h, LosesReturn]

/-- Behind the first bytes of a comment, the scanner takes all up to the first line end, or all that
there is. -/
theorem run_inComment (own bytes : List UInt8) (n : Nat) (hown : ¬ lineEnd <:+: own) :
    (∃ body behind, own ++ bytes = body ++ lineEnd ++ behind ∧ ¬ lineEnd <:+: body ∧
        run o (inComment o own) n bytes =
          ⟨.comment (closedText o.maxTokenLength body), false, n + bytes.length - behind.length,
            behind, false⟩) ∨
      ¬ lineEnd <:+: own ++ bytes ∧ run o (inComment o own) n bytes =
        ⟨.comment ((own ++ bytes).take o.maxTokenLength), false, n + bytes.length, [], true⟩ := by
  induction bytes generalizing own n with
  | nil =>
    rw [List.append_nil]
    exact .inr ⟨hown, rfl⟩
  | cons b bytes ih =>
    have hstep := step_inComment (o := o) own b
    by_cases hend : lineEnd <:+ own ++ [b]
    · rw [if_pos hend] at hstep
      obtain ⟨rfl, hlast⟩ := lineEnd_suffix_iff.mp hend
      obtain ⟨body, rfl⟩ := List.getLast?_eq_some_iff.mp hlast
      refine .inl ⟨body, bytes, by simp [lineEnd], fun h => hown ?_, ?_⟩
      · exact h.trans (List.prefix_append ..).isInfix
      · rw [run_finishAfter hstep, lineToken_take, List.length_cons]
        congr 1
        omega
    · rw [if_neg hend] at hstep
      have hnext : ¬ lineEnd <:+: own ++ [b] := by
        rw [List.infix_concat_iff]
        exact not_or.mpr ⟨hend, hown⟩
      have hcount : n + 1 + bytes.length = n + (b :: bytes).length := by
        rw [List.length_cons]
        omega
      have hmore := ih (own ++ [b]) (n + 1) hnext
      rwa [← List.append_cons, ← run_advance hstep, hcount] at hmore

end Scanner

open Comment

/-- A comment ends with its line end or with the script. -/
theorem scan_comment (o : LexerOptions) (bytes : List UInt8) :
    (∃ body behind, bytes = body ++ lineEnd ++ behind ∧ ¬ lineEnd <:+: body ∧
        scan o (0x25 :: bytes) =
          ⟨.comment (closedText o.maxTokenLength body), false, body.length + 3, behind, false⟩) ∨
      ¬ lineEnd <:+: bytes ∧ scan o (0x25 :: bytes) =
        ⟨.comment (bytes.take o.maxTokenLength), false, bytes.length + 1, [], true⟩ := by
  have hbegin : Scanner.start.step o 0x25 = .advance (Scanner.inComment o []) := by
    simp [Scanner.step, Scanner.begin, Byte.isBlank, Scanner.inComment]
  have hnil : ¬ lineEnd <:+: [] := by simp [lineEnd]
  rw [scan, Scanner.run_advance hbegin]
  rcases Scanner.run_inComment [] bytes (0 + 1) hnil with ⟨body, behind, rfl, hbody, hrun⟩ | hopen
  · refine .inl ⟨body, behind, rfl, hbody, hrun.trans ?_⟩
    simp [lineEnd]
    omega
  · rw [List.nil_append, Nat.zero_add, Nat.add_comm 1] at hopen
    exact .inr hopen

/-- A comment that starts at a place of a script has the bytes up to the first line end, or all
bytes of the script, and reading it leads directly behind them. Its text is what the limit keeps of
them, if and only if it does not lose a carriage return to the line end. -/
theorem Lexer.read_comment (lx : Lexer) (offset : Nat) (bytes : List UInt8) :
    let here : Lexer := { lx with ending := .complete, cursor := ⟨offset, 0x25 :: bytes⟩ }
    let limit := lx.options.maxTokenLength
    (∃ body behind text, bytes = body ++ lineEnd ++ behind ∧ ¬ lineEnd <:+: body ∧
        here.read = (.ok (.comment text),
          { here with cursor := ⟨offset + (body.length + 3), behind⟩, unterminated := false }) ∧
        (text = body.take limit ↔ ¬ LosesReturn limit body) ∧
        (LosesReturn limit body → text = body.take (limit - 1))) ∨
      ¬ lineEnd <:+: bytes ∧ here.read = (.ok (.comment (bytes.take limit)),
        { here with cursor := ⟨offset + (bytes.length + 1), []⟩, unterminated := false }) := by
  intro here limit
  have hread : here.read = _ := read_complete rfl
  rcases scan_comment lx.options bytes with ⟨body, behind, hbytes, hbody, hscan⟩ | ⟨hopen, hscan⟩
  · refine .inl ⟨body, behind, closedText limit body, hbytes, hbody, ?_, closedText_eq_iff, ?_⟩
    · rw [hread, hscan]
      rfl
    · exact fun h => if_pos h
  · refine .inr ⟨hopen, ?_⟩
    rw [hread, hscan]
    rfl

/-- With room for one byte, the carriage return in front of an `A` is taken for the one of the line
end. -/
theorem Lexer.return_lost :
    let body : List UInt8 := [0x0D, 0x41]
    let lx := start (({} : LexerOptions).limited 1) .complete (0x25 :: (body ++ lineEnd))
    ¬ lineEnd <:+: body ∧ lx.read.1 = .ok (.comment []) ∧ body.take 1 ≠ [] := by
  intro body lx
  refine ⟨?_, ?_, ?_⟩
  · simp [body, lineEnd, List.infix_cons_iff]
  · rfl
  · decide

end PageScript
