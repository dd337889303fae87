import PageScript.Proofs.Scope
import PageScript.Proofs.Significant

/-!
# Scripts as they are written

Each statement is written on a line of its own, as tokens with a space between them. The tokens of a
written script are those of its statements, one statement after the other.
-/
namespace PageScript

namespace Value

mutual

/-- A value as tokens. A key of a dictionary is written as a name. -/
def tokens : Value → List Token
  | .number n => [.number n]
  | .string bytes => [.string bytes]
  | .boolean b => [.keyword (Inspect.boolean b)]
  | .name text => [.name text]
  | .array items => .arrayStart :: (itemTokens items ++ [.arrayEnd])
  | .dictionary ⟨sorted⟩ => .dictionaryStart :: (entryTokens sorted ++ [.dictionaryEnd])
  | .variable x _ => [.variable x]
  | .keyword text => [.keyword text]

def itemTokens : List Value → List Token
  | [] => []
  | v :: rest => v.tokens ++ itemTokens rest

def entryTokens {low : Option String} : Entries Value low → List Token
  | .nil => []
  | .cons key v _ rest => .name ("/" ++ key) :: (v.tokens ++ entryTokens rest)

end

/-- Entries as they stand in a dictionary, in any order. -/
def pairTokens (pairs : List (String × Value)) : List Token :=
  pairs.flatMap fun e => .name ("/" ++ e.1) :: e.2.tokens

theorem entryTokens_eq {low : Option String} (entries : Entries Value low) :
    entryTokens entries = pairTokens entries.toList := by
  induction entries with
  | nil => rfl
  | cons key v _ rest ih =>
    rw [entryTokens, ih]
    rfl

mutual

/-- A value that is what its tokens are read as behind variables of certain kinds. Its variables, at
any depth, have the kinds they are declared with, and no keyword is a boolean. -/
def Readable (kinds : Table ValueKind) : Value → Prop
  | .array items => ItemsReadable kinds items
  | .dictionary ⟨sorted⟩ => EntriesReadable kinds sorted
  | .variable x kind => kinds.find? x = kind
  | .keyword text => text ≠ "true" ∧ text ≠ "false"
  | .number _ | .string _ | .boolean _ | .name _ => True

def ItemsReadable (kinds : Table ValueKind) : List Value → Prop
  | [] => True
  | v :: rest => v.Readable kinds ∧ ItemsReadable kinds rest

def EntriesReadable (kinds : Table ValueKind) {low : Option String} : Entries Value low → Prop
  | .nil => True
  | .cons _ v _ rest => v.Readable kinds ∧ EntriesReadable kinds rest

end

end Value

theorem Value.itemsReadable_iff {kinds : Table ValueKind} {items : List Value} :
    ItemsReadable kinds items ↔ ∀ v ∈ items, v.Readable kinds := by
  induction items with
  | nil => simp [ItemsReadable]
  | cons v items ih => simp [ItemsReadable, ih]

/-- Numbers in a row as an array. -/
def Value.ofNumbers (numbers : List Float32) : Value := .array (numbers.map .number)

theorem Value.readable_ofNumbers (kinds : Table ValueKind) (numbers : List Float32) :
    (ofNumbers numbers).Readable kinds := by
  rw [ofNumbers, Readable, itemsReadable_iff]
  simp [Readable]

namespace Pattern

/-- The dictionary that describes a pattern, entry by entry. -/
def entries (p : Pattern) : List (String × Value) :=
  let r := p.rectangle
  ("Rect", .ofNumbers [r.left, r.bottom, r.width, r.height]) ::
    ((p.stops.zipIdx.map fun s => (colorKey s.2, .ofNumbers s.1.color.components)) ++
      [("Stops", .ofNumbers (p.stops.map ColorStop.position))])

theorem readable_entries (kinds : Table ValueKind) (p : Pattern) :
    ∀ e ∈ p.entries, e.2.Readable kinds := by
  intro e he
  obtain ⟨numbers, hn⟩ : ∃ numbers, e.2 = .ofNumbers numbers := by
    simp only [entries, List.mem_cons, List.mem_append, List.mem_map, List.not_mem_nil,
      or_false] at he
    rcases he with rfl | ⟨s, -, rfl⟩ | rfl <;> exact ⟨_, rfl⟩
  rw [hn]
  exact Value.readable_ofNumbers kinds numbers

end Pattern

def PageSize.tokens : PageSize → List Token
  | .template t => [.name ("/" ++ t.word)]
  | .explicit width height => [.number width, .number height]

/-- A declaration behind its `#`. -/
def Declaration.tokens : Declaration → List Token
  | .variable name kind v =>
    .keyword "var" :: .variable name :: .name ("/" ++ kind.word) :: v.tokens
  | .resource r =>
    [.keyword "resource", .name r.name, .name ("/" ++ r.kind.word),
      .string (Utf8.encode r.location)]
  | .color name c =>
    .keyword "color" :: .name name :: .name ("/" ++ c.space.word) :: c.components.map .number
  | .pattern name p =>
    .keyword "pattern" :: .name name :: .name ("/" ++ p.kind.word) :: .name ("/" ++ p.space.word) ::
      .dictionaryStart :: (Value.pairTokens p.entries ++ [.dictionaryEnd])

namespace Statement

def tokens : Statement → List Token
  | .declaration d => .keyword "#" :: d.tokens
  | .graphics o => Value.itemTokens o.operands ++ [.keyword o.operator.symbol]
  | .page size => .keyword "#" :: .keyword "page" :: size.tokens
  | .endPage => [.keyword "#", .keyword "endpage"]

/-- A statement on a line, its tokens with a space between them. -/
def line (t : Statement) : List UInt8 := [0x20].intercalate (t.tokens.map Token.spell) ++ [0x0A]

/-- The kinds of variables behind a statement. -/
def addKind (kinds : Table ValueKind) : Statement → Table ValueKind
  | .declaration d => d.addKind kinds
  | .graphics _ | .page _ | .endPage => kinds

def Readable (kinds : Table ValueKind) : Statement → Prop
  | .declaration (.pattern _ p) => ∀ stop ∈ p.stops, stop.color.space = p.space
  | .graphics o => Value.ItemsReadable kinds o.operands
  | .declaration _ | .page _ | .endPage => True

/-- Statements each of which is readable behind the declarations before it. -/
def AllReadable (kinds : Table ValueKind) : List Statement → Prop
  | [] => True
  | t :: rest => t.Readable kinds ∧ AllReadable (t.addKind kinds) rest

theorem tokens_ne_nil (t : Statement) : t.tokens ≠ [] := by
  cases t <;> simp [tokens]

end Statement

def written (statements : List Statement) : List UInt8 := statements.flatMap Statement.line

/-- Statements that a script can hold: they may stand one behind the other, from outside of pages to
outside of pages, and they are readable, and so are their tokens. -/
structure Printable (o : LexerOptions) (statements : List Statement) : Prop where
  legal : ∃ s : Scope, Scope.Legal {} statements s ∧ s.context = .outside
  readable : Statement.AllReadable ∅ statements
  spellable : ∀ t ∈ statements.flatMap Statement.tokens, t.Spellable o

/-- Tokens on a line are read one by one. -/
theorem significant_intercalate {o : LexerOptions} {tokens : List Token} {rest : List UInt8}
    (hne : tokens ≠ []) (ht : ∀ t ∈ tokens, t.Spellable o) :
    significant o ([0x20].intercalate (tokens.map Token.spell) ++ 0x0A :: rest) =
      tokens.map (·, false) ++ significant o rest := by
  induction tokens with
  | nil => exact absurd rfl hne
  | cons t tokens ih =>
    obtain ⟨hfirst, hmore⟩ := List.forall_mem_cons.mp ht
    cases tokens with
    | nil => simpa using significant_spell hfirst (by decide)
    | cons next tokens =>
      have hlater := ih (by simp) hmore
      have hspell := @significant_spell o t 0x20
        ([0x20].intercalate ((next :: tokens).map Token.spell) ++ 0x0A :: rest) hfirst (by decide)
      rw [hlater] at hspell
      simpa [List.intercalate_cons_cons] using hspell

/-- The significant tokens of a written script. -/
theorem significant_written {o : LexerOptions} {statements : List Statement}
    (ht : ∀ t ∈ statements.flatMap Statement.tokens, t.Spellable o) :
    significant o (written statements) =
      (statements.flatMap Statement.tokens).map (·, false) := by
  induction statements with
  | nil => simp [written]
  | cons t statements ih =>
    rw [List.flatMap_cons, List.forall_mem_append] at ht
    have hlater := ih ht.2
    have hline := @significant_intercalate o _ (written statements) t.tokens_ne_nil ht.1
    rw [hlater] at hline
    simpa [written, Statement.line] using hline

example : (Statement.page (.explicit 612 792)).line = Utf8.encode "# page 612 792\n" := by
  decide +kernel

end PageScript
