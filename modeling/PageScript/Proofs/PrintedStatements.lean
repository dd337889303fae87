import PageScript.Proofs.PrintedDeclarations
import PageScript.Reader.Document

/-!
# Statements as they are read back

A reader in a scope that stands before the tokens of a statement tells of the statement, and is then
in the scope to which the statement leads. A script that has been written is read back as the
statements it was written from.
-/
namespace PageScript

namespace Operator

theorem mem_all (op : Operator) : op ∈ all := by
  cases op <;> decide

theorem ofSymbol_symbol (op : Operator) : ofSymbol op.symbol = .ok op := by
  have hall : ∀ op ∈ all, ofSymbol? op.symbol = some op := by decide +kernel
  rw [ofSymbol, hall op op.mem_all]

/-- No operator is written like a `#` or a boolean. -/
theorem symbol_ne (op : Operator) :
    op.symbol ≠ "#" ∧ op.symbol ≠ "true" ∧ op.symbol ≠ "false" := by
  have hall : ∀ op ∈ all, op.symbol ≠ "#" ∧ op.symbol ≠ "true" ∧ op.symbol ≠ "false" := by
    decide +kernel
  exact hall op op.mem_all

/-- The symbol of an operator ends a run of operands. -/
theorem stops (op : Operator) (kinds : Table ValueKind) (stack : List Value) :
    Reader.Operands.step kinds ⟨stack, .atValue []⟩ (.keyword op.symbol) false =
      .error (.operator op.symbol) := by
  simp [Reader.Operands.step, op.symbol_ne]

end Operator

/-- An operation is taken off the stack on which its operands are. -/
theorem Operation.take_operands (o : Operation) :
    take o.operator o.operands.reverse = (.ok o, []) := by
  obtain ⟨signature, hs, ha⟩ := o.accepted
  obtain ⟨taken, htake, hoperands⟩ := take_of_accepts hs ha
  obtain ⟨hop, -, -⟩ := take_ok htake
  have hsame : taken = o := by
    cases taken
    cases o
    cases hop
    cases hoperands
    rfl
  rw [htake, hsame]

namespace Gives

variable {r : Reader} {rest : List Token}

theorem operands {ts ts' : List Token} {stop : Reader.Stop} {last : Reader.Operands}
    (hover : Lexer.feedOver (Reader.Operands.step r.kinds) Reader.Operands.atEnd
      ⟨r.stack, .atValue []⟩ (ts.map (·, false)) = (stop, last, ts'.map (·, false))) :
    Gives Reader.operands r ts stop { r with stack := last.stack } ts' := by
  intro lx hlx
  obtain ⟨place, hrun, hplace⟩ := hlx.feed hover
  refine ⟨_, hlx.moved hplace, ?_⟩
  have hrun' := congrArg (fun x => (x.1, { r with lexer := x.2.2, stack := x.2.1.stack })) hrun
  exact hrun'

theorem noOperands (h : r.stack = []) : Gives Reader.noOperands r rest ⟨⟩ r rest := by
  refine get_bind fun lx _ => ?_
  simp only [h, List.isEmpty_nil]
  exact .pure

/-- A run of operands up to their operator. -/
theorem operation {o : Operation} (hempty : r.stack = [])
    (h : Value.ItemsReadable r.kinds o.operands) :
    Gives Reader.operands r (Value.itemTokens o.operands ++ .keyword o.operator.symbol :: rest)
      (.operator o.operator.symbol) { r with stack := o.operands.reverse } rest := by
  have hover : Lexer.feedOver (Reader.Operands.step r.kinds) Reader.Operands.atEnd
      ⟨r.stack, .atValue []⟩
      ((Value.itemTokens o.operands ++ .keyword o.operator.symbol :: rest).map (·, false)) =
      (.operator o.operator.symbol, ⟨o.operands.reverse, .atValue []⟩, rest.map (·, false)) := by
    rw [List.map_append, Reader.Operands.feedOver_values h o.kind_ne_keyword, List.map_cons,
      Lexer.feedOver, hempty, List.append_nil, o.operator.stops]
  exact operands hover

theorem graphics {o : Operation} {next : Context} (hstack : r.stack = o.operands.reverse)
    (haccept : r.context.accept o.operator = .ok next) :
    Gives (Reader.graphics o.operator.symbol) r rest (.graphics o)
      { r with stack := [], context := next } rest := by
  refine (ofExcept o.operator.ofSymbol_symbol).bind (get_bind fun _ _ => ?_)
  simp only [hstack, o.take_operands]
  have hclear : Gives (modify fun r => { r with stack := [] }) r rest ⟨⟩ { r with stack := [] }
      rest := .modify fun _ => rfl
  have hmove : Gives (Reader.move fun context => context.accept o.operator) { r with stack := [] }
      rest ⟨⟩ { r with stack := [], context := next } rest := move haccept
  exact hclear.bind ((ofExcept rfl).bind (hmove.bind .pure))

theorem pageSize (size : PageSize) :
    Gives Reader.pageSize r (size.tokens ++ rest) size r rest := by
  cases size with
  | template t =>
    refine token.bind ?_
    simp only [Vocabulary.ofName?_slash, t.ofWord?_word]
    exact .pure
  | explicit width height => exact token.bind (number.bind .pure)

/-- A `#` where a statement may start. -/
theorem hash : Gives Reader.operands r (.keyword "#" :: rest) .fragment r rest := by
  have hover : Lexer.feedOver (Reader.Operands.step r.kinds) Reader.Operands.atEnd
      ⟨r.stack, .atValue []⟩ ((.keyword "#" :: rest).map (·, false)) =
      (.fragment, ⟨r.stack, .atValue []⟩, rest.map (·, false)) := by
    rw [List.map_cons, Lexer.feedOver]
    rfl
  exact operands hover

theorem endOfInput : Gives Reader.operands r [] .endOfInput r [] := by
  have hover : Lexer.feedOver (Reader.Operands.step r.kinds) Reader.Operands.atEnd
      ⟨r.stack, .atValue []⟩ (([] : List Token).map (·, false)) =
      (.endOfInput, ⟨r.stack, .atValue []⟩, ([] : List Token).map (·, false)) := rfl
  exact operands hover

theorem fragment_declaration {d : Declaration} (hnew : d.New r.kinds r.declared)
    (hcolors : (Statement.declaration d).Readable r.kinds)
    (hrest : ∀ x c, d = .color x c → NoSurplus rest) :
    Gives Reader.fragment r (d.tokens ++ rest) (.declaration d) (r.entering d) rest := by
  cases d with
  | «variable» x kind v =>
    obtain ⟨hnew, type, rfl, hv⟩ := hnew
    exact token.bind (.bind .pure (variableDeclaration hv hnew).map)
  | resource resource => exact token.bind (.bind .pure (resourceDeclaration hnew).map)
  | color x c =>
    exact token.bind (.bind .pure (colorDeclaration hnew (hrest x c rfl)).map)
  | pattern x p => exact token.bind (.bind .pure (patternDeclaration hnew hcolors).map)

theorem fragment_page {size : PageSize} (hclosed : r.pageOpen = false) :
    Gives Reader.fragment r (.keyword "page" :: (size.tokens ++ rest)) (.page size)
      { r with context := .page, pageOpen := true } rest := by
  refine token.bind (.bind .pure ((pageSize size).bind (get_bind fun _ _ => ?_)))
  simp only [hclosed, Bool.false_eq_true, if_false]
  exact Gives.bind (.modify fun _ => rfl) .pure

theorem fragment_endPage (hopen : r.pageOpen = true) (hlevel : r.context = .page) :
    Gives Reader.fragment r (.keyword "endpage" :: rest) .endPage
      { r with context := .outside, pageOpen := false } rest := by
  refine token.bind (.bind .pure (get_bind fun _ _ => ?_))
  simp only [hopen, if_true]
  have hmove : Gives (Reader.move Context.endPage) r rest ⟨⟩ { r with context := .outside } rest :=
    move (by rw [hlevel]; rfl)
  exact (hmove.bind (.modify fun _ => rfl)).bind .pure

end Gives

/-- The reader that has just come to a scope. -/
def Scope.reader (s : Scope) : Reader :=
  { Reader.ofBytes [] with
    kinds := s.kinds
    declared := s.names
    context := s.context
    pageOpen := decide (s.context ≠ .outside) }

namespace Gives

variable {s s' : Scope} {rest : List Token}

/-- The next statement is the one whose tokens are ahead. -/
theorem statement {t : Statement} (h : s.Leads t s') (ht : t.Readable s.kinds)
    (hrest : ∀ x c, t = .declaration (.color x c) → NoSurplus rest) :
    Gives Reader.nextStatement s.reader (t.tokens ++ rest) (some t) s'.reader rest := by
  cases h with
  | @declaration d new =>
    have hfragment := fragment_declaration (r := s.reader) new ht
      fun x c hd => hrest x c (congrArg _ hd)
    exact hash.bind ((noOperands rfl).bind hfragment.map)
  | @graphics o next accepted _ =>
    obtain ⟨hinside, hnext⟩ := Context.inside_of_accept accepted
    have hsame : ({ s.reader with stack := [], context := next } : Reader) =
        ({ s with context := next } : Scope).reader := by
      simp [Scope.reader, hinside, hnext, Reader.ofBytes, Reader.ofLexer]
    have hoperands : Gives Reader.operands s.reader
        (Value.itemTokens o.operands ++ .keyword o.operator.symbol :: rest) _
        { s.reader with stack := o.operands.reverse } rest := operation rfl ht
    have hgraphics : Gives (Reader.graphics o.operator.symbol)
        { s.reader with stack := o.operands.reverse } rest _
        { s.reader with stack := [], context := next } rest := graphics rfl accepted
    rw [← hsame, Statement.tokens, List.append_assoc]
    exact hoperands.bind hgraphics.map
  | @page size level =>
    have hclosed : s.reader.pageOpen = false := by simp [Scope.reader, level]
    exact hash.bind ((noOperands rfl).bind (fragment_page hclosed).map)
  | endPage level =>
    have hopen : s.reader.pageOpen = true := by simp [Scope.reader, level]
    exact hash.bind ((noOperands rfl).bind (fragment_endPage hopen level).map)

/-- At the end of the input, outside of pages, there is no further statement. -/
theorem finish (h : s.context = .outside) :
    Gives Reader.nextStatement s.reader [] none s.reader [] := by
  have hclosed : s.reader.pageOpen = false := by simp [Scope.reader, h]
  refine endOfInput.bind ((noOperands rfl).bind (get_bind fun _ _ => ?_))
  simp only [hclosed, Bool.false_eq_true, if_false]
  exact .pure

end Gives

section Surplus

/-- Only numbers are counted, and what else begins a value ends the count. -/
theorem Value.countNumber_tokens {v : Value} (h : v.kind ≠ some .keyword) :
    (∃ x, v = .number x) ∨ ∃ t ts, v.tokens = t :: ts ∧
      ∀ n, Reader.countNumber n t false = .error 0 := by
  cases v with
  | number x => exact .inl ⟨x, rfl⟩
  | keyword => exact absurd rfl h
  | boolean b => cases b <;> exact .inr ⟨_, _, rfl, fun _ => rfl⟩
  | string | name | array | dictionary | «variable» => exact .inr ⟨_, _, rfl, fun _ => rfl⟩

theorem Operator.countNumber_symbol (op : Operator) (n : Nat) :
    Reader.countNumber n (.keyword op.symbol) false = .error 0 := by
  simp [Reader.countNumber, op.symbol_ne]

/-- The numbers in front of an operator are all for it to take. -/
theorem feedOver_countNumber {values : List Value} {op : Operator} {rest : List (Token × Bool)}
    (h : ∀ v ∈ values, v.kind ≠ some .keyword) (n : Nat) :
    (Lexer.feedOver Reader.countNumber id n
      ((Value.itemTokens values).map (·, false) ++ (.keyword op.symbol, false) :: rest)).1 = 0 := by
  induction values generalizing n with
  | nil =>
    rw [Value.itemTokens, List.map_nil, List.nil_append, Lexer.feedOver, op.countNumber_symbol]
  | cons v values ih =>
    obtain ⟨hfirst, hmore⟩ := List.forall_mem_cons.mp h
    rcases Value.countNumber_tokens hfirst with ⟨x, rfl⟩ | ⟨t, ts, htokens, ht⟩
    · exact ih hmore (n + 1)
    · rw [Value.itemTokens, htokens, List.cons_append, List.map_cons, List.cons_append,
        Lexer.feedOver, ht]

theorem noSurplus_tokens (statements : List Statement) :
    NoSurplus (statements.flatMap Statement.tokens) := by
  cases statements with
  | nil => rfl
  | cons t statements =>
    cases t with
    | declaration d => rfl
    | page size => rfl
    | endPage => rfl
    | graphics o =>
      have hcount := @feedOver_countNumber o.operands o.operator
        ((statements.flatMap Statement.tokens).map (·, false)) o.kind_ne_keyword 0
      simpa [NoSurplus, Statement.tokens] using hcount

end Surplus

namespace Reader

variable {s s' : Scope} {lx : Lexer}

theorem readStatement_of_run {r r' : Reader} {t : Option Statement} (hp : r.pending = [])
    (h : nextStatement.run r = (.ok t, r')) : r.readStatement = (.ok t, r') := by
  unfold readStatement
  split
  · next hq => simp [hp] at hq
  · rw [h]

theorem readStatement_of_gives {ts ts' : List Token} {t : Option Statement}
    (h : Gives nextStatement s.reader ts t s'.reader ts') (hlx : lx.Before ts) :
    ∃ lx' : Lexer, lx'.Before ts' ∧ ({ s.reader with lexer := lx } : Reader).readStatement =
      (.ok t, { s'.reader with lexer := lx' }) := by
  obtain ⟨lx', hlx', hrun⟩ := h lx hlx
  exact ⟨lx', hlx', readStatement_of_run rfl hrun⟩

theorem document_of_some {r r' : Reader} {t : Statement}
    (h : r.readStatement = (.ok (some t), r')) : r.document = .ok t :: r'.document := by
  rw [document]
  split
  · next h' =>
    cases h'.symm.trans h
    rfl
  · next h' => cases h'.symm.trans h
  · next h' => cases h'.symm.trans h

theorem document_of_none {r r' : Reader} (h : r.readStatement = (.ok none, r')) :
    r.document = [] := by
  rw [document]
  split
  · next h' => cases h'.symm.trans h
  · rfl
  · next h' => cases h'.symm.trans h

/-- Statements that lead from one scope to another outside of pages are read one by one. -/
theorem document_before {statements : List Statement} (h : s.Legal statements s')
    (hend : s'.context = .outside) (hread : Statement.AllReadable s.kinds statements)
    (hlx : lx.Before (statements.flatMap Statement.tokens)) :
    ({ s.reader with lexer := lx } : Reader).document = statements.map .ok := by
  induction h generalizing lx with
  | nil =>
    obtain ⟨lx', -, hrun⟩ := readStatement_of_gives (.finish hend) hlx
    exact document_of_none hrun
  | @cons s s₁ s' t ts first rest ih =>
    have hkinds : t.addKind s.kinds = s₁.kinds := by cases first <;> rfl
    have hgives := Gives.statement first hread.1 fun _ _ _ => noSurplus_tokens ts
    obtain ⟨lx', hlx', hrun⟩ := readStatement_of_gives hgives hlx
    rw [document_of_some hrun, List.map_cons, ih hend (hkinds ▸ hread.2) hlx']

/-- A script that has been written is read back as what it was written from. -/
theorem document_written {o : LexerOptions} {statements : List Statement}
    (h : Printable o statements) :
    (ofLexer (Lexer.start o .complete (written statements))).document = statements.map .ok := by
  obtain ⟨s, hlegal, hend⟩ := h.legal
  have hlx : (Lexer.start o .complete (written statements)).Before
      (statements.flatMap Statement.tokens) := ⟨rfl, significant_written h.spellable, rfl⟩
  exact document_before hlegal hend h.readable hlx

/-- A script with a statement of each kind and a variable inside an array. -/
def leaflet : List Statement :=
  [.declaration (.variable "$gap" .number (.number 12)),
    .declaration (.resource ⟨"/Body", .font, "body.ttf"⟩),
    .declaration (.color "/Ink" (.rgb 0 0 1)),
    .declaration (.pattern "/Fade" ⟨.linear, .gray, ⟨0, 0, 100, 50⟩, [⟨0, .gray 0⟩, ⟨1, .gray 1⟩]⟩),
    .page (.template .a4),
    .graphics ⟨.setDash, [.array [.number 3, .variable "$gap" (some .number)], .number 0],
      [.array, .number], by decide, by decide⟩,
    .endPage]

theorem document_written_leaflet : Printable {} leaflet ∧
    (ofLexer (Lexer.start {} .complete (written leaflet))).document = leaflet.map .ok := by
  have hlegal : ∃ s : Scope, Scope.Legal {} leaflet s ∧ s.context = .outside := by
    refine ⟨{ kinds := Table.empty.insert "$gap" .number, names := ["/Fade", "/Ink", "/Body"] }, ?_,
      rfl⟩
    refine .cons (.declaration ⟨rfl, .number, rfl, trivial⟩) ?_
    refine .cons (.declaration (show "/Body" ∉ [] by decide)) ?_
    refine .cons (.declaration (show "/Ink" ∉ ["/Body"] by decide)) ?_
    refine .cons (.declaration (show "/Fade" ∉ ["/Ink", "/Body"] by decide)) ?_
    refine .cons (.page rfl) ?_
    refine .cons (.graphics rfl (by simp [Value.Resolved])) ?_
    exact .cons (.endPage rfl) .nil
  have hread : Statement.AllReadable ∅ leaflet := by
    simp [leaflet, Statement.AllReadable, Statement.Readable, Value.ItemsReadable,
      Value.Readable, Statement.addKind, Declaration.addKind, Color.space]
  have h : Printable {} leaflet := ⟨hlegal, hread, by decide +kernel⟩
  exact ⟨h, document_written h⟩

end Reader

end PageScript
