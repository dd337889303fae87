import PageScript.Proofs.SideBySide

/-!
# Strings that are cut off

A script that ends inside a string is not read to its end: the last item is an error, wherever the
string stands. Nothing of the string gets into a statement.
-/
namespace PageScript

/-- The reader tells of the statements and then fails. -/
def Reader.FailsBehind (r : Reader) (statements : List Statement) : Prop :=
  ∃ e, r.document = statements.map .ok ++ [.error e]

theorem Reader.FailsBehind.unique {r : Reader} {statements others : List Statement}
    (h : r.FailsBehind statements) (h' : r.FailsBehind others) : statements = others := by
  obtain ⟨e, he⟩ := h
  obtain ⟨e', he'⟩ := h'
  have hsame := List.append_inj_left' (he.symm.trans he') rfl
  exact List.map_injective_iff.mpr (fun _ _ => Except.ok.inj) hsame

/-- Two scripts that are the same up to strings that the end of the input cuts off. -/
theorem fail_behind_same (o : LexerOptions) {bytes bytes' : List UInt8}
    {ts : List (Token × Bool)} {b b' : List UInt8}
    (h : significant o bytes = ts ++ [(Token.string b, true)])
    (h' : significant o bytes' = ts ++ [(Token.string b', true)]) : ∃ statements,
      (Reader.ofLexer (Lexer.start o .complete bytes)).FailsBehind statements ∧
        (Reader.ofLexer (Lexer.start o .complete bytes')).FailsBehind statements := by
  have hagree : TokensAgree True (significant o bytes) (significant o bytes') := by
    rw [h, h']
    exact .concat ts b b'
  have hbeside : (Reader.ofLexer (Lexer.start o .complete bytes)).Beside True
      (Reader.ofLexer (Lexer.start o .complete bytes')) := ⟨rfl, rfl, rfl, hagree⟩
  obtain ⟨statements, ⟨hnot, -⟩ | ⟨e, e', hd, hd', -⟩⟩ := Reader.documents_beside hbeside
  · exact absurd trivial hnot
  · exact ⟨statements, ⟨e, hd⟩, e', hd'⟩

/-- A script whose last significant token is a string that the end of the input cuts off. The reader
tells of some statements and then fails. The statements are the same whatever the string is, in every
script that has the same tokens before it. -/
theorem cut_off_string_fails (o : LexerOptions) {bytes : List UInt8} {ts : List (Token × Bool)}
    {b : List UInt8} (h : significant o bytes = ts ++ [(Token.string b, true)]) :
    ∃ statements, (Reader.ofLexer (Lexer.start o .complete bytes)).FailsBehind statements ∧
      ∀ bytes' b', significant o bytes' = ts ++ [(Token.string b', true)] →
        (Reader.ofLexer (Lexer.start o .complete bytes')).FailsBehind statements := by
  obtain ⟨statements, hfails, -⟩ := fail_behind_same o h h
  refine ⟨statements, hfails, fun bytes' b' h' => ?_⟩
  obtain ⟨others, hothers, hfails'⟩ := fail_behind_same o h h'
  rwa [hfails.unique hothers]

/-- In `q[(x` a string is cut off inside an array, behind an operator. -/
theorem cut_off_in_array :
    let bytes : List UInt8 := [0x71, 0x5B, 0x28, 0x78]
    let ts : List (Token × Bool) := [(.keyword "q", false), (.arrayStart, false)]
    significant {} bytes = ts ++ [(Token.string [0x78], true)] ∧
      ∃ statements, (Reader.ofLexer (Lexer.start {} .complete bytes)).FailsBehind statements ∧
        ∀ bytes' b', significant {} bytes' = ts ++ [(Token.string b', true)] →
          (Reader.ofLexer (Lexer.start {} .complete bytes')).FailsBehind statements := by
  intro bytes ts
  have htokens : significant {} bytes = ts ++ [(Token.string [0x78], true)] := by
    have hq : scan {} bytes = ⟨.keyword "q", false, 1, [0x5B, 0x28, 0x78], true⟩ := by
      decide +kernel
    have harray : scan {} [0x5B, 0x28, 0x78] = ⟨.arrayStart, false, 1, [0x28, 0x78], false⟩ := rfl
    have hstring : scan {} [0x28, 0x78] = ⟨.string [0x78], true, 2, [], true⟩ := rfl
    rw [significant_cons, hq, significant_cons, harray, significant_cons, hstring, significant_nil]
    rfl
  exact ⟨htokens, cut_off_string_fails {} htokens⟩

end PageScript
