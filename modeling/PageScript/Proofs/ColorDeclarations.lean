import PageScript.Proofs.FailingReads
import PageScript.Proofs.Layout

/-!
# Declarations of colours

A colour takes its components from the numbers behind the name of its space. More numbers than these
are left ahead, where they can only be operands: a `#` or the end of the input must not follow them.
-/
namespace PageScript

namespace Lexer

variable {lx : Lexer} {t : Token} {ts ts' : List Token}

/-- Neither saved places nor the string that was cut off before make a difference to reading. -/
theorem readSignificant_alike (lx : Lexer) (saved : List Cursor) (u : Bool) :
    ({ lx with saved := saved, unterminated := u } : Lexer).readSignificant =
      (lx.readSignificant.1, { lx.readSignificant.2 with saved := saved }) := by
  have hread (lx : Lexer) (u : Bool) :
      ({ lx with saved := saved, unterminated := u } : Lexer).read =
        (lx.read.1, { lx.read.2 with saved := saved }) := by
    simp only [read]
    split <;> rfl
  fun_induction readSignificant lx generalizing u with
  | case1 lx e next h =>
    have hread := hread lx u
    rw [h] at hread
    rw [readSignificant_of_error hread]
  | case2 lx t next h ht _ ih =>
    have hread := hread lx u
    rw [h] at hread
    rw [readSignificant_of_ok hread, if_pos ht, ← ih next.unterminated]
  | case3 lx t next h ht =>
    have hread := hread lx u
    rw [h] at hread
    rw [readSignificant_of_ok hread, if_neg ht]

theorem readSignificant_moves (lx : Lexer) : ∃ place u,
    lx.readSignificant.2 = { lx with cursor := place, unterminated := u } := by
  have hread (lx : Lexer) : ∃ place u,
      lx.read.2 = { lx with cursor := place, unterminated := u } := by
    simp only [read]
    split <;> exact ⟨_, _, rfl⟩
  fun_induction readSignificant lx with
  | case1 lx e next h | case3 lx t next h =>
    have hread := hread lx
    rwa [h] at hread
  | case2 lx t next h ht _ ih =>
    obtain ⟨place, u, hnext⟩ := hread lx
    rw [h] at hnext
    subst hnext
    exact ih

theorem peekSignificant_eq (lx : Lexer) : lx.peekSignificant =
    (lx.readSignificant.1, { lx with unterminated := lx.readSignificant.2.unterminated }) := by
  have hsaved := readSignificant_alike lx (lx.cursor :: lx.saved) lx.unterminated
  obtain ⟨place, u, hmoves⟩ := readSignificant_moves lx
  rw [hmoves] at hsaved ⊢
  exact congrArg (fun r => (r.1, r.2.restore)) hsaved

section Feed

variable {σ β : Type} {step : σ → Token → Bool → Except β σ} {atEnd : σ → β} {s s' : σ}

theorem feed_moves (step : σ → Token → Bool → Except β σ) (atEnd : σ → β) (s : σ) (lx : Lexer) :
    ∃ place u, (feed step atEnd s lx).2.2 = { lx with cursor := place, unterminated := u } := by
  fun_induction feed step atEnd s lx with
  | case1 s lx e next h | case2 s lx next h | case3 s lx t next h =>
    have hmoves := readSignificant_moves lx
    rwa [h] at hmoves
  | case4 s lx t next h ht s' hs hlt ih =>
    obtain ⟨place, u, hnext⟩ := readSignificant_moves lx
    rw [h] at hnext
    subst hnext
    exact ih

theorem feed_end (h : lx.readSignificant.1 = .ok .endOfInput) :
    (feed step atEnd s lx).1 = .ok (atEnd s) := by
  rw [feed]
  split
  · next hr => simp [hr] at h
  · next hr =>
    rw [hr] at h
    cases h
    rfl

theorem feed_ok (h : lx.readSignificant.1 = .ok t) (ht : t ≠ .endOfInput)
    (hs : step s t lx.readSignificant.2.unterminated = .ok s') :
    feed step atEnd s lx = feed step atEnd s' lx.readSignificant.2 := by
  rw [feed]
  split
  · next hr => simp [hr] at h
  · next hr =>
    obtain rfl : _ = t := by simpa [hr] using h
    simp only [hr] at hs ⊢
    rw [dif_neg ht, hs]

theorem feed_error {b : β} (h : lx.readSignificant.1 = .ok t) (ht : t ≠ .endOfInput)
    (hs : step s t lx.readSignificant.2.unterminated = .error b) :
    (feed step atEnd s lx).1 = .ok b := by
  rw [feed]
  split
  · next hr => simp [hr] at h
  · next hr =>
    obtain rfl : _ = t := by simpa [hr] using h
    simp only [hr] at hs
    rw [dif_neg ht, hs]

end Feed

/-- The significant tokens that the lexer reads next. -/
def Yields : Lexer → List Token → Prop
  | _, [] => True
  | lx, t :: ts => lx.readSignificant.1 = .ok t ∧ lx.readSignificant.2.Yields ts

theorem Yields.alike (h : lx.Yields ts) (saved : List Cursor) (u : Bool) :
    ({ lx with saved := saved, unterminated := u } : Lexer).Yields ts := by
  induction ts generalizing lx u with
  | nil => trivial
  | cons t ts ih =>
    rw [Yields, readSignificant_alike]
    exact ⟨h.1, ih h.2 _⟩

theorem Yields.front (h : lx.Yields (ts ++ ts')) : lx.Yields ts := by
  induction ts generalizing lx with
  | nil => trivial
  | cons t ts ih => exact ⟨h.1, ih h.2⟩

theorem significantReads_add (lx : Lexer) (m n : Nat) :
    (lx.significantReads m).significantReads n = lx.significantReads (m + n) := by
  induction n with
  | zero => rfl
  | succ n ih =>
    rw [significantReads, ih]
    rfl

theorem Yields.behind (h : lx.Yields (ts ++ ts')) : (lx.significantReads ts.length).Yields ts' := by
  induction ts generalizing lx with
  | nil => exact h
  | cons t ts ih =>
    rw [List.length_cons, Nat.add_comm, ← significantReads_add]
    exact ih h.2

theorem significantReads_alike (lx : Lexer) (u : Bool) (n : Nat) : ∃ v,
    ({ lx with unterminated := u } : Lexer).significantReads n =
      { lx.significantReads n with unterminated := v } := by
  induction n with
  | zero => exact ⟨u, rfl⟩
  | succ n ih =>
    obtain ⟨v, hv⟩ := ih
    have hread := readSignificant_alike (lx.significantReads n) (lx.significantReads n).saved v
    have hsaved := saved_readSignificant (lx.significantReads n)
    refine ⟨(lx.significantReads n).readSignificant.2.unterminated, ?_⟩
    rw [significantReads, hv, hread, ← hsaved]
    rfl

theorem ending_significantReads (lx : Lexer) (n : Nat) :
    (lx.significantReads n).ending = lx.ending := by
  induction n with
  | zero => rfl
  | succ n ih =>
    obtain ⟨place, u, hmoves⟩ := readSignificant_moves (lx.significantReads n)
    rw [significantReads, hmoves]
    exact ih

theorem yields_upcoming (hc : lx.ending = .complete) :
    lx.Yields (lx.upcoming.map Prod.fst ++ [.endOfInput]) := by
  induction hahead : lx.upcoming generalizing lx with
  | nil =>
    obtain ⟨place, hread, -⟩ := readSignificant_complete hc
    rw [hahead] at hread
    exact ⟨by rw [hread]; rfl, trivial⟩
  | cons head tail ih =>
    obtain ⟨place, hread, hplace⟩ := readSignificant_complete hc
    rw [hahead] at hread hplace
    refine ⟨by rw [hread]; rfl, ?_⟩
    rw [hread]
    exact ih hc hplace

/-- A complete script has some numbers ahead, or none, and then something else. -/
theorem exists_numbers (hc : lx.ending = .complete) : ∃ (numbers : List Float32) (t : Token),
    (∀ x, t ≠ .number x) ∧ lx.Yields (numbers.map .number ++ [t]) := by
  have hfirst (ts : List Token) : ∃ (numbers : List Float32) (t : Token) (rest : List Token),
      (∀ x, t ≠ .number x) ∧ ts ++ [.endOfInput] = numbers.map .number ++ [t] ++ rest := by
    induction ts with
    | nil => exact ⟨[], .endOfInput, [], nofun, rfl⟩
    | cons t ts ih =>
      by_cases hnumber : ∃ x, t = .number x
      · obtain ⟨x, rfl⟩ := hnumber
        obtain ⟨numbers, t, rest, ht, hts⟩ := ih
        exact ⟨x :: numbers, t, rest, ht, congrArg (List.cons (Token.number x)) hts⟩
      · exact ⟨[], t, ts ++ [.endOfInput], not_exists.mp hnumber, rfl⟩
  obtain ⟨numbers, t, rest, ht, hts⟩ := hfirst (lx.upcoming.map Prod.fst)
  have hyields := yields_upcoming hc
  rw [hts] at hyields
  exact ⟨numbers, t, ht, hyields.front⟩

end Lexer

namespace Reader

open Step

variable {r q : Reader} {t : Token} {ts : List Token} {x : Float32} {numbers : List Float32}
  {m n : Nat}

/-- The reader has taken `n` significant tokens and is otherwise the same, but for what it knows of
the last token seen. -/
def Takes (r : Reader) (n : Nat) (q : Reader) : Prop :=
  ∃ u, q = { r with lexer := { r.lexer.significantReads n with unterminated := u } }

theorem Takes.trans {p : Reader} (hq : r.Takes m q) (hp : q.Takes n p) : r.Takes (m + n) p := by
  obtain ⟨u, rfl⟩ := hq
  obtain ⟨v, rfl⟩ := hp
  obtain ⟨w, hw⟩ := Lexer.significantReads_alike (r.lexer.significantReads m) u n
  refine ⟨v, ?_⟩
  rw [hw, Lexer.significantReads_add]

theorem run_token (h : r.lexer.Yields (t :: ts)) :
    ∃ q, r.Takes 1 q ∧ q.lexer.Yields ts ∧ token.run r = (.ok t, q) :=
  ⟨_, ⟨_, rfl⟩, h.2, run_lexing (Prod.ext h.1 rfl)⟩

theorem run_peek (h : r.lexer.Yields (t :: ts)) :
    ∃ q, r.Takes 0 q ∧ q.lexer.Yields (t :: ts) ∧ peek.run r = (.ok t, q) := by
  have hpeek := Lexer.peekSignificant_eq r.lexer
  rw [h.1] at hpeek
  exact ⟨_, ⟨_, rfl⟩, h.alike _ _, run_lexing hpeek⟩

theorem run_name {name : String} (expected : String) (h : r.lexer.Yields (.name name :: ts)) :
    ∃ q, r.Takes 1 q ∧ q.lexer.Yields ts ∧ (Reader.name expected).run r = (.ok name, q) := by
  obtain ⟨q, hq, hts, hrun⟩ := run_token h
  refine ⟨q, hq, hts, ?_⟩
  rw [Reader.name, run_bind_ok hrun]
  rfl

theorem run_number (expected : String) (h : r.lexer.Yields (.number x :: ts)) :
    ∃ q, r.Takes 1 q ∧ q.lexer.Yields ts ∧ (Reader.number expected).run r = (.ok x, q) := by
  obtain ⟨q, hq, hts, hrun⟩ := run_token h
  refine ⟨q, hq, hts, ?_⟩
  rw [Reader.number, run_bind_ok hrun]
  rfl

/-- Components are taken as long as there are numbers. -/
theorem run_components (n : Nat) (h : r.lexer.Yields (numbers.map .number ++ [t]))
    (ht : ∀ x, t ≠ .number x) :
    ∃ q, r.Takes (min n numbers.length) q ∧
      q.lexer.Yields ((numbers.drop n).map .number ++ [t]) ∧
      (components n).run r = (if numbers.length < n ∧ t = .endOfInput
        then .error (.unexpectedEnd "colour component") else .ok (numbers.take n), q) := by
  induction n generalizing r numbers with
  | zero =>
    refine ⟨r, ⟨r.lexer.unterminated, ?_⟩, h, ?_⟩
    · rw [Nat.zero_min]
      rfl
    · rw [if_neg fun hend => Nat.not_lt_zero _ hend.1]
      rfl
  | succ n ih =>
    cases numbers with
    | nil =>
      obtain ⟨q, hq, hts, hrun⟩ := run_peek h
      refine ⟨q, by simpa using hq, hts, ?_⟩
      rw [components, run_bind_ok hrun]
      cases t with
      | number x => exact absurd rfl (ht x)
      | _ => rfl
    | cons x numbers =>
      obtain ⟨q, hq, hts, hrun⟩ := run_peek h
      obtain ⟨p, hp, hts, hnumber⟩ := run_number "colour component" hts
      obtain ⟨o, ho, hts, hcomponents⟩ := ih hts
      refine ⟨o, ?_, hts, ?_⟩
      · have htakes := (hq.trans hp).trans ho
        rwa [List.length_cons, Nat.succ_min_succ, Nat.succ_eq_one_add]
      · rw [components, run_bind_ok hrun, run_bind_ok hnumber]
        simp only [List.length_cons, Nat.add_lt_add_iff_right]
        split at hcomponents
        · next hend => rw [run_bind_error hcomponents, if_pos hend]
        · next hend =>
          rw [run_bind_ok hcomponents, if_neg hend]
          rfl

/-- Numbers are counted if the token behind them leaves them to no operator. -/
theorem feed_countNumber {lx : Lexer} (k : Nat) (h : lx.Yields (numbers.map .number ++ [t]))
    (ht : ∀ x, t ≠ .number x) : (Lexer.feed countNumber id k lx).1 =
      .ok (if t = .endOfInput ∨ t = .keyword "#" then k + numbers.length else 0) := by
  induction numbers generalizing lx k with
  | nil =>
    by_cases hend : t = .endOfInput
    · subst hend
      rw [Lexer.feed_end h.1, if_pos (.inl rfl)]
      rfl
    · by_cases hhash : t = .keyword "#"
      · subst hhash
        rw [Lexer.feed_error h.1 hend rfl, if_pos (.inr rfl)]
        rfl
      · have hother (u : Bool) : countNumber k t u = .error 0 := by
          unfold countNumber
          split
          · exact absurd rfl (ht _)
          · exact absurd rfl hhash
          · rfl
        rw [Lexer.feed_error h.1 hend (hother _), if_neg (not_or.mpr ⟨hend, hhash⟩)]
  | cons x numbers ih =>
    have hstep (u : Bool) : countNumber k (.number x) u = .ok (k + 1) := rfl
    rw [Lexer.feed_ok h.1 nofun (hstep _), ih (k + 1) h.2, List.length_cons, Nat.add_assoc,
      Nat.add_comm 1]

theorem run_surplus_takes (h : r.lexer.Yields (numbers.map .number ++ [t]))
    (ht : ∀ x, t ≠ .number x) : ∃ q, r.Takes 0 q ∧ surplus.run r =
      (.ok (if t = .endOfInput ∨ t = .keyword "#" then numbers.length else 0), q) := by
  have hcount : (Lexer.feed countNumber id 0 r.lexer.save).1 = _ :=
    feed_countNumber 0 (h.alike (r.lexer.cursor :: r.lexer.saved) r.lexer.unterminated) ht
  obtain ⟨place, u, hmoves⟩ := Lexer.feed_moves countNumber id 0 r.lexer.save
  have hrun : surplus.run r = ((Lexer.feed countNumber id 0 r.lexer.save).1,
      { r with lexer := (Lexer.feed countNumber id 0 r.lexer.save).2.2.restore }) := rfl
  rw [hrun, hcount, hmoves, Nat.zero_add]
  exact ⟨_, ⟨u, rfl⟩, rfl⟩

theorem run_declare (name : String) : (declare name).run r =
    if name ∈ r.declared then (.error (.duplicateDeclaration name), r)
    else (.ok ⟨⟩, { r with declared := name :: r.declared }) := by
  have hget : (get : Reading Reader).run r = (.ok r, r) := rfl
  rw [declare, run_bind_ok hget]
  by_cases h : name ∈ r.declared
  · simp only [List.contains_iff_mem.mpr h, if_pos h, if_true]
    rfl
  · simp only [List.contains_iff_mem, if_neg h]
    rfl

/-- The reader stands behind the word `color`, before a name, the name of a space and numbers that a
token of another kind ends. -/
structure BeforeColor (r : Reader) (name word : String) (space : ColorSpace)
    (numbers : List Float32) (t : Token) : Prop where
  space : Vocabulary.ofName word = .ok space
  ends : ∀ x, t ≠ .number x
  ahead : r.lexer.Yields (.name name :: .name word :: (numbers.map .number ++ [t]))

section Outcome

variable {name word : String} {space : ColorSpace}

theorem BeforeColor.behind (h : r.BeforeColor name word space numbers t)
    (hle : n ≤ numbers.length) :
    (r.lexer.significantReads (2 + n)).Yields ((numbers.drop n).map .number) := by
  have hahead := h.ahead
  rw [← List.take_append_drop n numbers, List.map_append, List.append_assoc] at hahead
  have hlength :
      (Token.name name :: .name word :: (numbers.take n).map .number).length = 2 + n := by
    simp only [List.length_cons, List.length_map, List.length_take, Nat.min_eq_left hle]
    omega
  rw [← hlength]
  exact (Lexer.Yields.behind hahead).front

/-- What is made of the components taken and the count of the numbers that no operator can take. -/
def enterColor (name : String) (space : ColorSpace) (numbers : List Float32) (extra : Nat) :
    Reading Declaration :=
  match Color.ofComponents? space numbers, extra with
  | some color, 0 => do
    declare name
    return .color name color
  | _, _ =>
    throw (.componentCount s!"colour {name}" space.componentCount (numbers.length + extra))

theorem enterColor_counted {color : Color} (h : Color.ofComponents? space numbers = some color) :
    enterColor name space numbers 0 = do
      declare name
      return .color name color := by
  simp only [enterColor, h]

theorem enterColor_miscounted {extra : Nat}
    (h : numbers.length = space.componentCount → extra ≠ 0) :
    enterColor name space numbers extra =
      throw (.componentCount s!"colour {name}" space.componentCount (numbers.length + extra)) := by
  unfold enterColor
  split
  · next color hcolor => exact absurd rfl (h (Color.exists_ofComponents?.mp ⟨color, hcolor⟩))
  · rfl

theorem run_colorDeclaration (h : r.BeforeColor name word space numbers t) :
    let n := space.componentCount
    ∃ q, r.Takes (2 + min n numbers.length) q ∧ colorDeclaration.run r =
      if numbers.length < n ∧ t = .endOfInput then (.error (.unexpectedEnd "colour component"), q)
      else (enterColor name space (numbers.take n)
        (if t = .endOfInput ∨ t = .keyword "#" then numbers.length - n else 0)).run q := by
  intro n
  obtain ⟨q₁, hq₁, h₁, hname⟩ := run_name "colour name" h.ahead
  obtain ⟨q₂, hq₂, h₂, hspace⟩ := run_name "colour space" h₁
  have hofName : (MonadExcept.ofExcept (Vocabulary.ofName word) : Reading ColorSpace).run q₂ =
      (.ok space, q₂) := by
    rw [h.space]
    rfl
  obtain ⟨q₃, hq₃, h₃, hcomponents⟩ := run_components n h₂ h.ends
  rw [colorDeclaration, run_bind_ok hname, run_bind_ok hspace, run_bind_ok hofName]
  by_cases hend : numbers.length < n ∧ t = .endOfInput
  · rw [if_pos hend] at hcomponents
    refine ⟨q₃, (hq₁.trans hq₂).trans hq₃, ?_⟩
    rw [run_bind_error hcomponents, if_pos hend]
  · rw [if_neg hend] at hcomponents
    obtain ⟨q₄, hq₄, hsurplus⟩ := run_surplus_takes h₃ h.ends
    rw [List.length_drop] at hsurplus
    refine ⟨q₄, ((hq₁.trans hq₂).trans hq₃).trans hq₄, ?_⟩
    rw [run_bind_ok hcomponents, run_bind_ok hsurplus, if_neg hend]
    rfl

/-- The numbers are as many as the components, or those that are left can be operands. -/
def Suffice (n count : Nat) (t : Token) : Prop :=
  n ≤ count ∧ (count = n ∨ t ≠ .endOfInput ∧ t ≠ .keyword "#")

theorem count_of_not_suffice (h : ¬ Suffice n numbers.length t) :
    let extra := if t = .endOfInput ∨ t = .keyword "#" then numbers.length - n else 0
    (numbers.take n).length + extra = numbers.length ∧ (n ≤ numbers.length → extra ≠ 0) := by
  intro extra
  by_cases hle : n ≤ numbers.length
  · have hstop : t = .endOfInput ∨ t = .keyword "#" := by
      by_contra hother
      exact h ⟨hle, .inr (not_or.mp hother)⟩
    have hne : numbers.length ≠ n := fun heq => h ⟨hle, .inl heq⟩
    simp only [extra, if_pos hstop, List.length_take]
    omega
  · simp only [extra, List.length_take]
    split <;> omega

theorem run_colorDeclaration_of_suffice (h : r.BeforeColor name word space numbers t)
    (hsuffice : Suffice space.componentCount numbers.length t) :
    ∃ color q, color.space = space ∧ color.components = numbers.take space.componentCount ∧
      r.Takes (2 + space.componentCount) q ∧ colorDeclaration.run r =
        if name ∈ r.declared then (.error (.duplicateDeclaration name), q)
        else (.ok (.color name color), { q with declared := name :: r.declared }) := by
  obtain ⟨q, hq, hrun⟩ := run_colorDeclaration h
  obtain ⟨hle, hextra⟩ := hsuffice
  have hnone : (if t = .endOfInput ∨ t = .keyword "#"
      then numbers.length - space.componentCount else 0) = 0 := by
    split
    · next hstop =>
      rcases hextra with heq | hother
      · omega
      · exact absurd hstop (not_or.mpr hother)
    · rfl
  have hlength : (numbers.take space.componentCount).length = space.componentCount := by
    simpa using hle
  obtain ⟨color, hcolor⟩ := Color.exists_ofComponents?.mpr hlength
  obtain ⟨hspace, hcomponents⟩ := Color.ofComponents?_eq_some.mp hcolor
  rw [Nat.min_eq_left hle] at hq
  refine ⟨color, q, hspace, hcomponents, hq, ?_⟩
  rw [hrun, hnone, enterColor_counted hcolor, if_neg (by omega)]
  obtain ⟨u, rfl⟩ := hq
  by_cases hname : name ∈ r.declared
  · rw [if_pos hname]
    exact run_bind_error ((run_declare name).trans (if_pos hname))
  · rw [if_neg hname]
    exact run_bind_ok ((run_declare name).trans (if_neg hname))

theorem colorDeclaration_of_not_suffice (h : r.BeforeColor name word space numbers t)
    (hsuffice : ¬ Suffice space.componentCount numbers.length t) :
    (colorDeclaration.run r).1 =
      .error (if numbers.length < space.componentCount ∧ t = .endOfInput
        then .unexpectedEnd "colour component"
        else .componentCount s!"colour {name}" space.componentCount numbers.length) := by
  obtain ⟨q, -, hrun⟩ := run_colorDeclaration h
  obtain ⟨hcount, hextra⟩ := count_of_not_suffice hsuffice
  rw [hrun]
  generalize (if t = .endOfInput ∨ t = .keyword "#" then numbers.length - space.componentCount
    else 0) = extra at hcount hextra ⊢
  split
  · rfl
  · have hmiscount : (numbers.take space.componentCount).length = space.componentCount →
        extra ≠ 0 := by
      rw [List.length_take]
      exact fun hlength => hextra (by omega)
    rw [enterColor_miscounted hmiscount, hcount]
    rfl

end Outcome

section Operands

theorem feed_numbers {kinds : Table ValueKind} {stack : List Value} {lx : Lexer}
    (h : lx.Yields (numbers.map .number)) :
    Lexer.feed (Operands.step kinds) Operands.atEnd ⟨stack, .atValue []⟩ lx =
      Lexer.feed (Operands.step kinds) Operands.atEnd
        ⟨(numbers.map .number).reverse ++ stack, .atValue []⟩
        (lx.significantReads numbers.length) := by
  induction numbers generalizing lx stack with
  | nil => rfl
  | cons x numbers ih =>
    have hstep (u : Bool) : Operands.step kinds ⟨stack, .atValue []⟩ (.number x) u =
        .ok ⟨.number x :: stack, .atValue []⟩ := rfl
    rw [Lexer.feed_ok h.1 nofun (hstep _), List.length_cons, Nat.add_comm,
      ← Lexer.significantReads_add, List.map_cons, List.reverse_cons, List.append_assoc]
    exact ih h.2

/-- Numbers ahead are the next operands. -/
theorem operands_numbers (h : r.lexer.Yields (numbers.map .number)) :
    operands.run r = operands.run { r with
      lexer := r.lexer.significantReads numbers.length
      stack := (numbers.map .number).reverse ++ r.stack } := by
  have hrun (r : Reader) : operands.run r =
      let fed := Lexer.feed (Operands.step r.kinds) Operands.atEnd ⟨r.stack, .atValue []⟩ r.lexer
      (fed.1, { r with lexer := fed.2.2, stack := fed.2.1.stack }) := rfl
  rw [hrun, hrun, feed_numbers h]

end Operands

section Saved

/-- No place is left saved, and none that was saved is given up. -/
def SavedAlike (r r' : Reader) : Prop := r'.lexer.saved = r.lexer.saved

instance : Std.Refl SavedAlike := ⟨fun _ => rfl⟩

instance : Trans SavedAlike SavedAlike SavedAlike := ⟨fun h h' => h'.trans h⟩

theorem saved_lexing {α : Type} {f : Lexer → Except ScriptError α × Lexer}
    (hf : ∀ lx, (f lx).2.saved = lx.saved) : Keeps SavedAlike (lexing f) := fun r => by
  have h : r.SavedAlike ((lexing f).run r).2 := hf r.lexer
  unfold Ensures
  split <;> exact h

theorem saved_token : Keeps SavedAlike token := saved_lexing Lexer.saved_readSignificant

theorem saved_peek : Keeps SavedAlike peek := saved_lexing fun lx => lx.peekSignificant_place.2

theorem saved_surplus : Keeps SavedAlike surplus :=
  saved_lexing fun lx => (Lexer.restore_place (Lexer.saved_feed _ _ _ lx.save)).2

theorem saved_declare (name : String) : Keeps SavedAlike (declare name) := by
  refine Keeps.get.bind fun r => ?_
  split
  · exact Keeps.throw.bind fun _ _ => rfl
  · exact fun _ => rfl

theorem saved_colorDeclaration : Keeps SavedAlike colorDeclaration := by
  have hname := keeps_name_of_token saved_token
  refine (hname _).bind fun name => (hname _).bind fun word => Keeps.ofExcept.bind fun space => ?_
  refine (keeps_components_of_tokens saved_token saved_peek _).bind fun numbers => ?_
  refine saved_surplus.bind fun extra => ?_
  split
  · exact (saved_declare name).bind fun _ => Keeps.pure
  · exact Keeps.throw

end Saved

/-- Where a name, a space of `n` components and `k` numbers are ahead, followed by `t`, a colour is
declared if and only if the name is new and the numbers suffice. It takes the first `n` of them, and
the others are the next operands. Too few numbers and too many are reported by their count, unless
the end of the input cut them short, and only then the name. No place is left saved, whatever is
read. -/
theorem reads_color (r : Reader) (name word : String) (space : ColorSpace) :
    (colorDeclaration.run r).2.lexer.saved = r.lexer.saved ∧
    (r.lexer.ending = .complete → Vocabulary.ofName word = .ok space →
      r.lexer.Yields [.name name, .name word] →
      ∃ numbers t, r.BeforeColor name word space numbers t) ∧
    ∀ numbers t, r.BeforeColor name word space numbers t →
      let n := space.componentCount
      let k := numbers.length
      let outcome := (colorDeclaration.run r).1
      let after := (colorDeclaration.run r).2
      ((∃ d, outcome = .ok d) ↔ name ∉ r.declared ∧ Suffice n k t) ∧
      (name ∉ r.declared ∧ Suffice n k t →
        (∃ color u, color.space = space ∧ color.components = numbers.take n ∧
          outcome = .ok (.color name color) ∧
          after = { r with
            lexer := { r.lexer.significantReads (2 + n) with unterminated := u }
            declared := name :: r.declared }) ∧
        operands.run after = operands.run { after with
          lexer := after.lexer.significantReads (k - n)
          stack := ((numbers.drop n).map .number).reverse ++ after.stack }) ∧
      (k < n ∧ t = .endOfInput → outcome = .error (.unexpectedEnd "colour component")) ∧
      (¬ Suffice n k t ∧ ¬ (k < n ∧ t = .endOfInput) →
        outcome = .error (.componentCount s!"colour {name}" n k)) ∧
      (Suffice n k t ∧ name ∈ r.declared → outcome = .error (.duplicateDeclaration name)) := by
  refine ⟨(saved_colorDeclaration r).state, fun hc hspace hahead => ?_, fun numbers t h => ?_⟩
  · have hcomplete := (r.lexer.ending_significantReads 2).trans hc
    obtain ⟨numbers, t, ht, hyields⟩ := Lexer.exists_numbers hcomplete
    exact ⟨numbers, t, hspace, ht, hahead.1, hahead.2.1, hyields⟩
  · intro n k outcome after
    by_cases hsuffice : Suffice n k t
    · have hle : n ≤ k := hsuffice.1
      obtain ⟨color, q, hcolor, hcomponents, ⟨u, rfl⟩, hrun⟩ :=
        run_colorDeclaration_of_suffice h hsuffice
      by_cases hname : name ∈ r.declared
      · rw [if_pos hname] at hrun
        have houtcome : outcome = .error (.duplicateDeclaration name) := congrArg Prod.fst hrun
        refine ⟨?_, fun hnew => absurd hname hnew.1, fun hend => by omega,
          fun hcount => absurd hsuffice hcount.1, fun _ => houtcome⟩
        simp [houtcome, hname]
      · rw [if_neg hname] at hrun
        have houtcome : outcome = .ok (.color name color) := congrArg Prod.fst hrun
        have hafter : after = _ := congrArg Prod.snd hrun
        have hahead : after.lexer.Yields ((numbers.drop n).map .number) := by
          rw [hafter]
          exact (h.behind hle).alike _ u
        have hoperands := operands_numbers hahead
        rw [List.length_drop] at hoperands
        exact ⟨⟨fun _ => ⟨hname, hsuffice⟩, fun _ => ⟨_, houtcome⟩⟩,
          fun _ => ⟨⟨color, u, hcolor, hcomponents, houtcome, hafter⟩, hoperands⟩,
          fun hend => by omega, fun hcount => absurd hsuffice hcount.1,
          fun hused => absurd hused.2 hname⟩
    · have houtcome : outcome = _ := colorDeclaration_of_not_suffice h hsuffice
      refine ⟨?_, fun hnew => absurd hnew.2 hsuffice, fun hend => ?_, fun hcount => ?_,
        fun hused => absurd hused.1 hsuffice⟩
      · simp [houtcome, hsuffice]
      · rw [houtcome, if_pos hend]
      · rw [houtcome, if_neg hcount.2]

set_option maxRecDepth 100000 in
/-- A grey level behind which the operands of an `m` stand. -/
theorem reads_color_before_operands :
    let r := Reader.ofBytes "/Grey /DeviceGray 0.5 10 20 m".toUTF8.toList
    let numbers : List Float32 := [0.5, 10, 20]
    r.lexer.ending = .complete ∧
      Vocabulary.ofName "/DeviceGray" = .ok ColorSpace.gray ∧
      r.lexer.Yields [.name "/Grey", .name "/DeviceGray"] ∧
      r.BeforeColor "/Grey" "/DeviceGray" .gray numbers (.keyword "m") ∧
      "/Grey" ∉ r.declared ∧ Suffice 1 3 (.keyword "m") ∧
      ∃ d, (colorDeclaration.run r).1 = .ok d := by
  intro r numbers
  have hspace : Vocabulary.ofName "/DeviceGray" = .ok ColorSpace.gray := rfl
  have hupcoming : r.lexer.upcoming.map Prod.fst = .name "/Grey" :: .name "/DeviceGray" ::
      (numbers.map .number ++ [.keyword "m"]) := by
    decide +kernel
  have hahead := (@Lexer.yields_upcoming r.lexer rfl).front
  rw [hupcoming] at hahead
  have h : r.BeforeColor "/Grey" "/DeviceGray" .gray numbers (.keyword "m") :=
    ⟨hspace, nofun, hahead⟩
  have hnew : "/Grey" ∉ r.declared := by decide
  have hsuffice : Suffice 1 3 (.keyword "m") := ⟨by decide, .inr ⟨nofun, by decide⟩⟩
  obtain ⟨-, -, hreads⟩ := reads_color r "/Grey" "/DeviceGray" .gray
  exact ⟨rfl, hspace, ⟨hahead.1, hahead.2.1, trivial⟩, h, hnew, hsuffice,
    (hreads numbers _ h).1.mpr ⟨hnew, hsuffice⟩⟩

end Reader

end PageScript
