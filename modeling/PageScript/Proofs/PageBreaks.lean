import PageScript.Proofs.Reading

/-!
# Page breaks

A page that begins while another one is open ends it. The reader tells of the end first, and is then
on a page that it has still to tell of. Everywhere else it is where its statements lead.
-/
namespace PageScript.Reader

/-- The last read told of the end of a page, and the next one begins a page without reading on. -/
def AtBreak (r : Reader) (n : Nat) : Prop :=
  ∃ m, n = m + 1 ∧ r.result m = .ok (some .endPage) ∧
    ∃ size, r.result n = .ok (some (.page size)) ∧ (r.after (n + 1)).lexer = (r.after n).lexer

/-- A statement that has been found before is told of without reading on. -/
theorem readStatement_of_pending {r : Reader} {s : Statement} {rest : List Statement}
    (h : r.pending = s :: rest) :
    r.readStatement = (.ok (some s), { r with pending := rest }) := by
  unfold readStatement
  rw [h]

/-- A page that has not been found before is read. -/
theorem Advance.lexer_ne_of_page {r r' : Reader} {size : PageSize}
    (h : r.Advance (some (.page size)) r') : r'.lexer ≠ r.lexer := by
  cases h with
  | @page q _ gathered shorter =>
    intro he
    have hle : q.lexer.remaining = r.lexer.remaining := congrArg Lexer.remaining he
    omega

/-- Statements are found before their turn only where a page ends because the next one begins. -/
theorem result_of_pending {r : Reader} {size : PageSize} (hr : r.pending = [])
    (h : r.readStatement.2.pending = [.page size]) : r.readStatement.1 = .ok (some .endPage) := by
  rcases r.readStatement_cases with ⟨_, _, hp, -⟩ | ⟨-, ⟨s, r', he, ha⟩ | ⟨_, q, he, hg⟩⟩
  · cases hr.symm.trans hp
  · rw [he] at h ⊢
    have still {q : Reader} (hq : r.Gathered q) : q.pending = [] := by rw [hq.1, hr]
    cases ha with
    | nextPage => rfl
    | declaration gathered | graphics gathered | page gathered | finish gathered =>
      cases (still gathered).symm.trans h
    | endPage => rfl
  · rw [he] at h
    have still : q.pending = [] := by rw [hg.1, hr]
    cases still.symm.trans h

/-- The reader is ahead of what it has told of at page breaks, and only there. -/
theorem atBreak_iff (lx : Lexer) (n : Nat) :
    (ofLexer lx).AtBreak n ↔ ((ofLexer lx).after n).pending ≠ [] := by
  obtain ⟨s, -, hb⟩ := told_legal lx n
  constructor
  · rintro ⟨-, -, -, size, hnext, hlexer⟩ hp
    rcases readStatement_cases ((ofLexer lx).after n) with
      ⟨_, _, hp', -⟩ | ⟨-, ⟨t, r', he, ha⟩ | ⟨_, _, he, -⟩⟩
    · cases hp.symm.trans hp'
    · obtain rfl : t = some (.page size) := by
        rw [result, he] at hnext
        exact Except.ok.inj hnext
      rw [after, he] at hlexer
      exact ha.lexer_ne_of_page hlexer
    · rw [result, he] at hnext
      cases hnext
  · intro hp
    obtain ⟨hnone, -⟩ | ⟨size, hsize, -⟩ := hb.ahead
    · exact absurd hnone hp
    have hnext := readStatement_of_pending hsize
    cases n with
    | zero => cases hsize
    | succ m =>
      refine ⟨m, rfl, ?_, size, congrArg Prod.fst hnext, ?_⟩
      · obtain ⟨_, -, hm⟩ := told_legal lx m
        have hfound : ((ofLexer lx).after m).pending = [] := by
          obtain ⟨hnone, -⟩ | ⟨size', hsize', -⟩ := hm.ahead
          · exact hnone
          · rw [after, readStatement_of_pending hsize'] at hsize
            cases hsize
        exact result_of_pending hfound hsize
      · exact congrArg (fun p => p.2.lexer) hnext

/-- After any number of reads the reader is where the statements that it has told of lead, except at
a page break: there they lead outside of pages, and the reader is on the next page. -/
theorem context_told (lx : Lexer) (n : Nat) :
    ∃ context, Context.replay .outside ((ofLexer lx).told n) = some context ∧
      (((ofLexer lx).after n).context = context ↔ ¬ (ofLexer lx).AtBreak n) ∧
        ((ofLexer lx).AtBreak n → context = .outside ∧ ((ofLexer lx).after n).context = .page) := by
  obtain ⟨s, hs, hb⟩ := told_legal lx n
  refine ⟨s.context, hs.replay, ?_⟩
  rw [atBreak_iff]
  obtain ⟨hnone, hc⟩ | ⟨size, hsize, hc, hs⟩ := hb.ahead
  · simp [hnone, hc]
  · simp [hsize, hc, hs]

set_option maxRecDepth 100000 in
/-- Where a page begins before the one before it has ended, the end is told of from the new page. -/
theorem ahead_at_break :
    let r := ofLexer (Lexer.ofBytes "# page /A4\n# page /A5\n".toUTF8.toList)
    (∀ i < 2, (r.result i).toOption.isSome) ∧
      Context.replay .outside (r.told 2) = some .outside ∧ (r.after 2).context = .page := by
  decide +kernel

end PageScript.Reader
