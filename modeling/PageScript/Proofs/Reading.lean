import PageScript.Proofs.Scope

/-!
# Readings are legal

The statements that a reader tells of are legal from the start of a script. The reader itself may be
ahead of them, on a page that it has still to tell of.
-/
namespace PageScript.Reader

/-- The reader after `n` reads, whatever came of them. -/
def after (r : Reader) : Nat → Reader
  | 0 => r
  | n + 1 => (r.after n).readStatement.2

def result (r : Reader) (n : Nat) : Except StatementError (Option Statement) :=
  (r.after n).readStatement.1

/-- The statement that a read tells of, if it tells of one. -/
def toldBy : Except StatementError (Option Statement) → Option Statement
  | .ok s => s
  | .error _ => none

def told (r : Reader) (n : Nat) : List Statement :=
  (List.range n).filterMap fun i => toldBy (r.result i)

theorem told_succ (r : Reader) (n : Nat) :
    r.told (n + 1) = r.told n ++ (toldBy (r.result n)).toList := by
  rw [told, List.range_succ, List.filterMap_append, told]
  cases h : toldBy (r.result n) <;> simp [h]

/-- The reader has told of statements that lead to a scope. Its two marks of an open page agree, and
it is in the scope unless the page that comes next is still to be told of. -/
structure Behind (r : Reader) (s : Scope) : Prop where
  opened : r.pageOpen = true ↔ r.context ≠ .outside
  ahead : r.pending = [] ∧ r.context = s.context ∨
    ∃ size, r.pending = [.page size] ∧ r.context = .page ∧ s.context = .outside
  kinds : r.kinds = s.kinds
  names : r.declared = s.names
  stack : ∀ v ∈ r.stack, v.Resolved s.kinds

theorem behind_ofLexer (lx : Lexer) : (ofLexer lx).Behind {} :=
  ⟨by simp [ofLexer], .inl ⟨rfl, rfl⟩, rfl, rfl, by simp [ofLexer]⟩

theorem Gathered.behind {r q : Reader} {s : Scope} (h : r.Gathered q) (hr : r.Behind s) :
    q.Behind s := by
  have hstack : ∀ v ∈ q.stack, v.Resolved s.kinds := fun v hv =>
    (h.2.2 v hv).elim (hr.stack v) fun hk => hr.kinds ▸ hk
  have he := h.1
  generalize q.stack = stack at he hstack
  rw [he]
  exact ⟨hr.opened, hr.ahead, hr.kinds, hr.names, hstack⟩

/-- An advance tells of a statement that may stand in the scope, and finishes outside of pages. -/
theorem Advance.leads {r r' : Reader} {t : Option Statement} {s : Scope} (h : r.Advance t r')
    (hr : r.Behind s) (hp : r.pending = []) :
    ∃ s', s.Legal t.toList s' ∧ r'.Behind s' ∧ (t = none → s'.context = .outside) := by
  have here {q : Reader} (hq : r.Gathered q) :
      q.Behind s ∧ q.pending = [] ∧ q.context = s.context := by
    have hb := hq.behind hr
    have hq' : q.pending = [] := by rw [hq.1]; exact hp
    exact ⟨hb, hq', by simpa [hq'] using hb.ahead⟩
  cases h with
  | @declaration q d gathered _ empty new =>
    obtain ⟨hb, hq, hc⟩ := here gathered
    rw [hb.kinds, hb.names] at new
    exact ⟨_, (Scope.Leads.declaration new).legal, ⟨hb.opened, .inl ⟨hq, hc⟩,
      congrArg d.addKind hb.kinds, congrArg d.addName hb.names, by simp [entering, empty]⟩, fun h => by cases h⟩
  | @graphics q o next gathered _ accepted operands =>
    obtain ⟨hb, hq, hc⟩ := here gathered
    obtain ⟨hi, hn⟩ := Context.inside_of_accept accepted
    refine ⟨_, (Scope.Leads.graphics (hc ▸ accepted) fun v hv => hb.stack v ?_).legal,
      ⟨by simp [hb.opened, hi, hn], .inl ⟨hq, rfl⟩, hb.kinds, hb.names, by simp⟩, fun h => by cases h⟩
    rwa [operands, List.mem_reverse] at hv
  | @page q size gathered _ empty closed =>
    obtain ⟨hb, hq, hc⟩ := here gathered
    have hs : q.context = .outside := by simpa [closed] using hb.opened
    exact ⟨_, (Scope.Leads.page (hc ▸ hs)).legal,
      ⟨by simp, .inl ⟨hq, rfl⟩, hb.kinds, hb.names, by simp [empty]⟩, fun h => by cases h⟩
  | @nextPage q size gathered _ empty opened level =>
    obtain ⟨hb, hq, hc⟩ := here gathered
    have hs : q.context = .page := level.resolve_right (hb.opened.mp opened)
    exact ⟨_, (Scope.Leads.endPage (hc ▸ hs)).legal,
      ⟨by simp, .inr ⟨size, by simp [hq], rfl, rfl⟩, hb.kinds, hb.names, by simp [empty]⟩, fun h => by cases h⟩
  | @endPage q gathered empty opened level =>
    obtain ⟨hb, hq, hc⟩ := here gathered
    have hs : q.context = .page := level.resolve_right (hb.opened.mp opened)
    exact ⟨_, (Scope.Leads.endPage (hc ▸ hs)).legal,
      ⟨by simp, .inl ⟨hq, rfl⟩, hb.kinds, hb.names, by simp [empty]⟩, fun h => by cases h⟩
  | finish gathered _ closed =>
    obtain ⟨hb, hq, hc⟩ := here gathered
    have hs : r'.context = .outside := by simpa [closed] using hb.opened
    exact ⟨s, .nil, hb, fun _ => hc ▸ hs⟩

/-- A read tells of a statement that may stand in the scope, and finds the end of the script only
outside of pages. A read that fails leaves the scope as it is. -/
theorem readStatement_leads {r : Reader} {s : Scope} (hr : r.Behind s) :
    ∃ s', s.Legal (toldBy r.readStatement.1).toList s' ∧ r.readStatement.2.Behind s' ∧
      (r.readStatement.1 = .ok none → s'.context = .outside) := by
  rcases r.readStatement_cases with ⟨t, rest, hp, he⟩ | ⟨hp, ⟨t, q, he, ha⟩ | ⟨e, q, he, hg⟩⟩
  · obtain ⟨hq, -⟩ | ⟨size, hq, hc, hs⟩ := hr.ahead
    · simp [hq] at hp
    · obtain ⟨rfl, rfl⟩ : .page size = t ∧ [] = rest := by simpa [hq] using hp
      rw [he]
      exact ⟨_, (Scope.Leads.page hs).legal,
        ⟨hr.opened, .inl ⟨rfl, hc⟩, hr.kinds, hr.names, hr.stack⟩, nofun⟩
  · obtain ⟨s', hs, hb, hend⟩ := ha.leads hr hp
    rw [he]
    exact ⟨s', hs, hb, fun h => hend (Except.ok.inj h)⟩
  · rw [he]
    exact ⟨s, .nil, hg.behind hr, nofun⟩

theorem told_legal (lx : Lexer) (n : Nat) :
    ∃ s, Scope.Legal {} ((ofLexer lx).told n) s ∧ ((ofLexer lx).after n).Behind s := by
  induction n with
  | zero => exact ⟨{}, .nil, behind_ofLexer lx⟩
  | succ n ih =>
    obtain ⟨s, hs, hb⟩ := ih
    obtain ⟨s', hs', hb', -⟩ := readStatement_leads hb
    refine ⟨s', ?_, hb'⟩
    rw [told_succ]
    exact hs.append hs'

/-- However often a script is read from, also behind errors and behind its end, what the reads tell
of can be replayed, and whenever a read finds the end every page has been ended. -/
theorem told_replays (lx : Lexer) (n : Nat) :
    ∃ context, Context.replay .outside ((ofLexer lx).told n) = some context ∧
      ((ofLexer lx).result n = .ok none → context = .outside) := by
  obtain ⟨s, hs, hb⟩ := told_legal lx n
  refine ⟨s.context, hs.replay, fun h => ?_⟩
  have hr : ((ofLexer lx).after n).readStatement.1 = .ok none := h
  obtain ⟨s', hs', -, hend⟩ := readStatement_leads hb
  rw [hr] at hs'
  cases hs'
  exact hend hr

def statements (results : List (Except StatementError Statement)) : List Statement :=
  results.filterMap Except.toOption

theorem statements_append (ts : List Statement) (rest : List (Except StatementError Statement)) :
    statements (ts.map .ok ++ rest) = ts ++ statements rest := by
  rw [statements, List.filterMap_append, List.filterMap_map]
  exact congrArg (· ++ statements rest) List.filterMap_some

/-- A whole script is legal, and unless an error cuts it off it ends outside of pages. -/
theorem document_legal {r : Reader} {s : Scope} (hr : r.Behind s) :
    ∃ s', s.Legal (statements r.document) s' ∧
      ((∀ e, .error e ∉ r.document) → s'.context = .outside) := by
  fun_induction document r generalizing s with
  | case1 r t r' h _ ih =>
    obtain ⟨s', hs, hb, -⟩ := readStatement_leads hr
    rw [h] at hs hb
    obtain ⟨s'', hs', hend⟩ := ih hb
    exact ⟨s'', hs.append hs', fun he => hend fun e hm => he e (List.mem_cons_of_mem _ hm)⟩
  | case2 r r' h =>
    obtain ⟨s', hs, -, hend⟩ := readStatement_leads hr
    rw [h] at hs hend
    exact ⟨s', hs, fun _ => hend rfl⟩
  | case3 r e r' h => exact ⟨s, .nil, fun he => absurd (List.mem_singleton_self _) (he e)⟩

end PageScript.Reader
