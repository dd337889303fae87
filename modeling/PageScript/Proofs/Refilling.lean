import PageScript.Lexer.Buffered
import PageScript.Proofs.IndexedLexer

/-!
# Reading in pieces is reading

A lexer that reads its script in pieces does what the lexer of the whole script does. The bytes that
it holds are those of the script from an offset on, and no place that can be returned to lies
outside of them.
-/
namespace PageScript

/-- A delivery without bytes is the end of the script. -/
theorem Delivery.concat_eq_nil {deliveries : List Delivery} (h : (next deliveries).1 = []) :
    concat deliveries = [] := by
  induction deliveries with
  | nil => rfl
  | cons d later ih =>
    cases d with
    | bytes first rest => cases h
    | interrupted => exact ih h

/-- What looking at the next byte comes to. -/
def Ending.peek : Ending → List UInt8 → Except ScriptError (Option UInt8)
  | _, byte :: _ => .ok (some byte)
  | .complete, [] => .ok none
  | .failure text, [] => .error (.external text)

section Peek

variable {ending : Ending} {bytes : List UInt8}

theorem Ending.peek_some {byte : UInt8} (h : ending.peek bytes = .ok (some byte)) :
    ∃ rest, bytes = byte :: rest := by
  cases bytes with
  | nil => cases ending <;> cases h
  | cons first rest =>
    cases h
    exact ⟨rest, rfl⟩

theorem Ending.peek_none (h : ending.peek bytes = .ok none) : bytes = [] ∧ ending = .complete := by
  cases bytes with
  | nil => cases ending with
    | complete => exact ⟨rfl, rfl⟩
    | failure text => cases h
  | cons first rest => cases h

theorem Ending.peek_error {e : ScriptError} (h : ending.peek bytes = .error e) :
    bytes = [] ∧ ∃ text, ending = .failure text ∧ e = .external text := by
  cases bytes with
  | nil => cases ending with
    | complete => cases h
    | failure text =>
      cases h
      exact ⟨rfl, text, rfl, rfl⟩
  | cons first rest => cases h

end Peek

/-- What a scan comes to. -/
def Ending.result (ending : Ending) (s : Scan) : Except ScriptError (Token × Bool) :=
  match ending.met? s with
  | some e => .error e
  | none => .ok (s.token, s.unterminated)

namespace Buffer

def position (b : Buffer) : Nat := b.offset + b.cursor

/-- The bytes held and those to come are the script from the offset on, and the place and all saved
places lie among the bytes held. -/
structure Covers (bytes : List UInt8) (b : Buffer) : Prop where
  script : bytes.drop b.offset = b.held.toList ++ Delivery.concat b.supply
  cursor : b.cursor ≤ b.held.size
  marks : ∀ m ∈ b.marks, b.offset ≤ m ∧ m ≤ b.offset + b.held.size
  ended : b.ended = true → Delivery.concat b.supply = [] ∧ b.ending = .complete

/-- The buffer has gone on by some bytes, whatever has become of the bytes that it holds. -/
structure Moved (bytes : List UInt8) (count : Nat) (b b' : Buffer) : Prop where
  covers : b'.Covers bytes
  position : b'.position = b.position + count
  marks : b'.marks = b.marks
  ending : b'.ending = b.ending

variable {bytes : List UInt8} {b : Buffer}

theorem Covers.still (h : b.Covers bytes) : Moved bytes 0 b b := ⟨h, rfl, rfl, rfl⟩

theorem Covers.ahead (h : b.Covers bytes) :
    bytes.drop b.position = b.held.toList.drop b.cursor ++ Delivery.concat b.supply := by
  have hc : b.cursor ≤ b.held.toList.length := by simpa using h.cursor
  rw [position, ← List.drop_drop, h.script, List.drop_append_of_le_length hc]

/-- Bytes are let go of only when no place is saved. -/
theorem Covers.drain (h : b.Covers bytes) : Moved bytes 0 b b.drain := by
  unfold Buffer.drain
  split
  · next hm =>
    have hmarks : b.marks = [] := List.isEmpty_iff.mp hm
    have hkept : (b.held.extract b.cursor).toList = b.held.toList.drop b.cursor := by
      simp [List.take_of_length_le]
    refine ⟨⟨?_, by simp, by simp [hmarks], h.ended⟩, by simp [position], rfl, rfl⟩
    rw [hkept]
    exact h.ahead
  · exact h.still

theorem Covers.receive (h : b.Covers bytes) : Moved bytes 0 b b.receive := by
  have hn := Delivery.concat_next b.supply
  have hsize : b.held.size ≤ b.receive.held.size := by simp [Buffer.receive]
  refine ⟨⟨?_, Nat.le_trans h.cursor hsize, fun m hm => ?_, fun he => ?_⟩, rfl, rfl, rfl⟩
  · have hs : b.receive.offset = b.offset := rfl
    rw [hs, h.script, ← hn]
    simp [Buffer.receive]
  · have := h.marks m hm
    have ho : b.receive.offset = b.offset := rfl
    omega
  · obtain ⟨hc, hcomplete⟩ := h.ended he
    rw [hc] at hn
    exact ⟨(List.append_eq_nil_iff.mp hn).2, hcomplete⟩

theorem Moved.trans {n k : Nat} {b' b'' : Buffer} (h : Moved bytes n b b')
    (h' : Moved bytes k b' b'') : Moved bytes (n + k) b b'' where
  covers := h'.covers
  position := by rw [h'.position, h.position, Nat.add_assoc]
  marks := h'.marks.trans h.marks
  ending := h'.ending.trans h.ending

theorem Covers.refill (h : b.Covers bytes) : Moved bytes 0 b b.drain.receive :=
  h.drain.trans h.drain.covers.receive

theorem Covers.lookup {byte : UInt8} (h : b.Covers bytes) (hb : b.held[b.cursor]? = some byte) :
    ∃ rest, bytes.drop b.position = byte :: rest := by
  obtain ⟨hlt, hbyte⟩ := Array.getElem?_eq_some_iff.mp hb
  have hlt' : b.cursor < b.held.toList.length := by simpa using hlt
  have hbyte' : b.held.toList[b.cursor] = byte := hbyte
  rw [h.ahead, List.drop_eq_getElem_cons hlt', hbyte']
  exact ⟨_, rfl⟩

theorem Covers.missing (h : b.Covers bytes) (hb : b.held[b.cursor]? = none) :
    b.cursor = b.held.size ∧ bytes.drop b.position = Delivery.concat b.supply := by
  have hge : b.held.size ≤ b.cursor := Array.getElem?_eq_none_iff.mp hb
  have hc := h.cursor
  refine ⟨by omega, ?_⟩
  rw [h.ahead, List.drop_eq_nil_of_le (by simpa using hge), List.nil_append]

theorem supply_drain (b : Buffer) : b.drain.supply = b.supply := by
  unfold drain
  split <;> rfl

theorem ending_drain (b : Buffer) : b.drain.ending = b.ending := by
  unfold drain
  split <;> rfl

theorem unread_drain (b : Buffer) :
    b.drain.held.size - b.drain.cursor = b.held.size - b.cursor := by
  unfold drain
  split <;> simp

/-- Behind the last byte held stands the first one that is delivered. -/
theorem Covers.lookup_refill (h : b.Covers bytes) (hb : b.held[b.cursor]? = none) :
    b.drain.receive.held[b.drain.receive.cursor]? = (Delivery.next b.supply).1.head? := by
  have hend := (h.missing hb).1
  have hsize := unread_drain b
  have hcursor := h.drain.covers.cursor
  have hlast : b.drain.cursor = b.drain.held.size := by omega
  have hheld : b.drain.receive.held =
      b.drain.held ++ (Delivery.next b.supply).1.toArray := by
    rw [Buffer.receive, supply_drain]
  have hsame : b.drain.receive.cursor = b.drain.cursor := rfl
  rw [hheld, hsame, hlast]
  rw [Array.getElem?_append_right (Nat.le_refl _), Nat.sub_self, List.getElem?_toArray,
    List.head?_eq_getElem?]

theorem Moved.end {b' : Buffer} (h : Moved bytes 0 b b')
    (he : Delivery.concat b'.supply = [] ∧ b'.ending = .complete) :
    Moved bytes 0 b { b' with ended := true } where
  covers := ⟨h.covers.script, h.covers.cursor, h.covers.marks, fun _ => he⟩
  position := h.position
  marks := h.marks
  ending := h.ending

/-- Filling an empty buffer gives the next byte of the script, or fails if none can come. -/
theorem Covers.fill (h : b.Covers bytes) (hb : b.held[b.cursor]? = none) :
    ∃ b', Moved bytes 0 b b' ∧
      ((b.fill = (.ok (), b') ∧
          b.ending.peek (bytes.drop b.position) = .ok b'.held[b'.cursor]?) ∨
        ∃ e, b.fill = (.error e, b') ∧ b.ending.peek (bytes.drop b.position) = .error e) := by
  have hrefill := h.refill
  have hlookup := h.lookup_refill hb
  have hahead := (h.missing hb).2
  simp only [Buffer.fill, supply_drain, ending_drain]
  cases hfirst : (Delivery.next b.supply).1 with
  | nil =>
    have hnil := Delivery.concat_eq_nil hfirst
    rw [hfirst] at hlookup
    rw [hahead, hnil]
    cases he : b.ending with
    | complete =>
      have hlater := Delivery.concat_next b.supply
      rw [hnil] at hlater
      have hsupply : Delivery.concat b.drain.receive.supply = [] := by
        rw [Buffer.receive, supply_drain]
        exact (List.append_eq_nil_iff.mp hlater).2
      have hpeek : Ending.complete.peek [] = .ok b.drain.receive.held[b.drain.receive.cursor]? := by
        rw [hlookup]
        rfl
      exact ⟨_, hrefill.end ⟨hsupply, hrefill.ending.trans he⟩, .inl ⟨rfl, hpeek⟩⟩
    | failure text => exact ⟨_, hrefill, .inr ⟨_, rfl, rfl⟩⟩
  | cons byte rest =>
    rw [hfirst] at hlookup
    obtain ⟨later, hl⟩ := hrefill.covers.lookup hlookup
    rw [hrefill.position, Nat.add_zero] at hl
    exact ⟨_, hrefill, .inl ⟨by simp, by rw [hl, hlookup]; rfl⟩⟩

/-- Looking at the next byte asks for more bytes if none are held, and fails if none can come. -/
theorem Covers.peek (h : b.Covers bytes) :
    ∃ b', b.peek = (b.ending.peek (bytes.drop b.position), b') ∧ Moved bytes 0 b b' := by
  unfold Buffer.peek
  split
  · next byte hb =>
    obtain ⟨rest, hr⟩ := h.lookup hb
    exact ⟨b, by rw [hr]; rfl, h.still⟩
  · next hb =>
    split
    · next he =>
      obtain ⟨hnil, hcomplete⟩ := h.ended he
      rw [(h.missing hb).2, hnil, hcomplete]
      exact ⟨b, rfl, h.still⟩
    · obtain ⟨b', hrefill, ⟨hfill, hpeek⟩ | ⟨e, hfill, hpeek⟩⟩ := h.fill hb
      · exact ⟨b', by rw [hfill, hpeek], hrefill⟩
      · exact ⟨b', by rw [hfill, hpeek], hrefill⟩

theorem Covers.advance (h : b.Covers bytes) (hb : b.cursor < b.held.size) :
    Moved bytes 1 b b.advance where
  covers := ⟨h.script, hb, h.marks, h.ended⟩
  position := rfl
  marks := rfl
  ending := rfl

theorem Covers.peek_eq {b' : Buffer} {r : Except ScriptError (Option UInt8)} (h : b.Covers bytes)
    (hp : b.peek = (r, b')) : b.ending.peek (bytes.drop b.position) = r ∧ Moved bytes 0 b b' := by
  obtain ⟨b₁, hpeek, hmoved⟩ := h.peek
  obtain ⟨hr, rfl⟩ := Prod.mk.inj (hpeek.symm.trans hp)
  exact ⟨hr, hmoved⟩

theorem Covers.take {b' : Buffer} {byte : UInt8} (h : b.Covers bytes)
    (hp : b.peek = (.ok (some byte), b')) :
    bytes.drop b.position = byte :: bytes.drop (b.position + 1) ∧ Moved bytes 0 b b' ∧
      Moved bytes 1 b b'.advance := by
  obtain ⟨hbyte, hmoved⟩ := h.peek_eq hp
  have hheld : b'.cursor < b'.held.size := by
    have hsome := @peek_some b byte
    rw [hp] at hsome
    exact hsome rfl
  have hahead : bytes.drop b.position = byte :: bytes.drop (b.position + 1) := by
    obtain ⟨rest, hr⟩ := Ending.peek_some hbyte
    rw [← List.drop_drop, hr, List.drop_one, List.tail_cons]
  have hadvance := hmoved.trans (hmoved.covers.advance hheld)
  rw [Nat.zero_add] at hadvance
  exact ⟨hahead, hmoved, hadvance⟩

/-- Taking bytes one by one, and more of them when they run out, comes to the scan of the script. -/
theorem Covers.run (o : LexerOptions) (s : Scanner) (n : Nat) (h : b.Covers bytes) :
    ∃ k b', (Scanner.run o s n (bytes.drop b.position)).length = n + k ∧
      Buffer.run o s b = (b.ending.result (Scanner.run o s n (bytes.drop b.position)), b') ∧
      Moved bytes k b b' := by
  fun_induction Buffer.run o s b generalizing n with
  | case1 s b e b' hp =>
    obtain ⟨hpeek, hmoved⟩ := h.peek_eq hp
    obtain ⟨hahead, text, hending, rfl⟩ := Ending.peek_error hpeek
    rw [hahead, hending]
    exact ⟨0, b', rfl, rfl, hmoved⟩
  | case2 s b b' hp =>
    obtain ⟨hpeek, hmoved⟩ := h.peek_eq hp
    obtain ⟨hahead, hending⟩ := Ending.peek_none hpeek
    rw [hahead, hending]
    exact ⟨0, b', rfl, rfl, hmoved⟩
  | case3 s b byte b' hp hlt next hs ih =>
    obtain ⟨hahead, -, hmoved⟩ := h.take hp
    obtain ⟨k, b'', hlength, hrun, hrest⟩ := ih (n + 1) hmoved.covers
    rw [hmoved.position, hmoved.ending] at hrun
    rw [hmoved.position] at hlength
    have hstep : Scanner.run o s n (bytes.drop b.position) =
        Scanner.run o next (n + 1) (bytes.drop (b.position + 1)) := by
      rw [hahead, Scanner.run, hs]
    rw [hstep]
    exact ⟨1 + k, b'', by omega, hrun, hmoved.trans hrest⟩
  | case4 s b byte b' hp hlt t hs =>
    obtain ⟨hahead, hmoved, -⟩ := h.take hp
    have hstep : Scanner.run o s n (bytes.drop b.position) =
        ⟨t, false, n, byte :: bytes.drop (b.position + 1), true⟩ := by
      rw [hahead, Scanner.run, hs]
    rw [hstep]
    refine ⟨0, b', rfl, ?_, hmoved⟩
    cases b.ending <;> rfl
  | case5 s b byte b' hp hlt t hs =>
    obtain ⟨hahead, -, hmoved⟩ := h.take hp
    have hstep : Scanner.run o s n (bytes.drop b.position) =
        ⟨t, false, n + 1, bytes.drop (b.position + 1), false⟩ := by
      rw [hahead, Scanner.run, hs]
    rw [hstep]
    refine ⟨1, b'.advance, rfl, ?_, hmoved⟩
    cases b.ending <;> rfl

end Buffer

namespace BufferedLexer

/-- What the lexer of the whole script knows where this one stands. -/
def index (lx : BufferedLexer) : IndexedLexer where
  index := lx.position
  saved := lx.buffer.marks
  unterminated := lx.unterminated

/-- The lexer of the whole script that stands where this one stands. -/
def seen (bytes : List UInt8) (lx : BufferedLexer) : Lexer :=
  lx.index.whole lx.options bytes lx.buffer.ending

variable {bytes : List UInt8} {lx : BufferedLexer}

/-- The bytes that no buffer holds yet are all to come. -/
theorem covers_start (o : LexerOptions) (ending : Ending) (supply : List Delivery) :
    (start o ending supply).buffer.Covers (Delivery.concat supply) where
  script := by simp [start]
  cursor := Nat.le_refl _
  marks := by simp [start]
  ended := by simp [start]

theorem seen_start (o : LexerOptions) (ending : Ending) (supply : List Delivery) :
    (start o ending supply).seen (Delivery.concat supply) =
      Lexer.start o ending (Delivery.concat supply) := rfl

theorem seen_read (h : lx.buffer.Covers bytes) :
    (lx.seen bytes).read = (lx.read.1, lx.read.2.seen bytes) ∧ lx.read.2.buffer.Covers bytes := by
  obtain ⟨k, b, hlength, hrun, hmoved⟩ := h.run lx.options .start 0
  have hscan : (lx.seen bytes).read =
      let s := scan lx.options (bytes.drop lx.buffer.position)
      match lx.buffer.ending.met? s with
      | some e => (.error e, { (lx.seen bytes).after s with unterminated := false })
      | none =>
        (.ok s.token, { (lx.seen bytes).after s with unterminated := s.unterminated }) := rfl
  have hafter : (lx.seen bytes).after (scan lx.options (bytes.drop lx.buffer.position)) =
      { lx with buffer := b }.seen bytes := by
    have hdrop := drop_length_scan lx.options (bytes.drop lx.buffer.position)
    have hcount : (scan lx.options (bytes.drop lx.buffer.position)).length = k := by
      rw [scan, hlength, Nat.zero_add]
    rw [hcount, List.drop_drop, ← hmoved.position] at hdrop
    have hplace : (lx.seen bytes).cursor.offset + k = b.position := hmoved.position.symm
    rw [Lexer.after, hcount, hplace, ← hdrop]
    simp only [seen, index, IndexedLexer.whole, hmoved.ending, hmoved.marks]
    rfl
  have hrun' : Buffer.run lx.options .start lx.buffer =
      (lx.buffer.ending.result (scan lx.options (bytes.drop lx.buffer.position)), b) := hrun
  simp only [hscan, hafter, read, hrun', Ending.result]
  cases lx.buffer.ending.met? (scan lx.options (bytes.drop lx.buffer.position)) with
  | none => exact ⟨rfl, hmoved.covers⟩
  | some e => exact ⟨rfl, hmoved.covers⟩

theorem seen_readSignificant (h : lx.buffer.Covers bytes) :
    (lx.seen bytes).readSignificant = (lx.readSignificant.1, lx.readSignificant.2.seen bytes) ∧
      lx.readSignificant.2.buffer.Covers bytes := by
  fun_induction readSignificant lx with
  | case1 lx e next hr =>
    obtain ⟨hread, hcovers⟩ := seen_read h
    rw [hr] at hread hcovers
    exact ⟨Lexer.readSignificant_of_error hread, hcovers⟩
  | case2 lx t next hr ht hlt ih =>
    obtain ⟨hread, hcovers⟩ := seen_read h
    rw [hr] at hread hcovers
    rw [Lexer.readSignificant_of_ok hread, if_pos ht]
    exact ih hcovers
  | case3 lx t next hr ht =>
    obtain ⟨hread, hcovers⟩ := seen_read h
    rw [hr] at hread hcovers
    rw [Lexer.readSignificant_of_ok hread, if_neg ht]
    exact ⟨rfl, hcovers⟩

theorem seen_save : (lx.seen bytes).save = lx.save.seen bytes := rfl

theorem covers_save (h : lx.buffer.Covers bytes) : lx.save.buffer.Covers bytes where
  script := h.script
  cursor := h.cursor
  marks := by
    intro m hm
    rcases List.mem_cons.mp hm with rfl | hm
    · exact ⟨Nat.le_add_right _ _, Nat.add_le_add_left h.cursor _⟩
    · exact h.marks m hm
  ended := h.ended

/-- A saved place is never before the bytes that are held, nor behind them. -/
theorem seen_restore (h : lx.buffer.Covers bytes) :
    (lx.seen bytes).restore = lx.restore.seen bytes ∧ lx.restore.buffer.Covers bytes := by
  cases hm : lx.buffer.marks with
  | nil =>
    have hsame : lx.restore = lx := by simp only [restore, hm]
    rw [hsame]
    exact ⟨by simp [Lexer.restore, seen, index, IndexedLexer.whole, hm], h⟩
  | cons mark marks =>
    have hmark := h.marks mark (by simp [hm])
    have hplace : lx.restore.position = mark := by
      simp only [restore, hm, position]
      omega
    have hrestore : lx.restore.buffer =
        { lx.buffer with cursor := mark - lx.buffer.offset, marks := marks } := by
      simp only [restore, hm]
    refine ⟨?_, ?_⟩
    · rw [seen, IndexedLexer.whole_restore, seen]
      have hindex : lx.restore.index = lx.index.restore := by
        simp only [index, hplace, IndexedLexer.restore, hm, hrestore]
        simp [restore, hm]
      rw [hindex, hrestore]
      simp [restore, hm]
    · rw [hrestore]
      refine ⟨h.script, ?_, fun m hm' => h.marks m (by simp [hm, hm']), h.ended⟩
      simp only
      omega

theorem seen_discard (h : lx.buffer.Covers bytes) :
    (lx.seen bytes).discard = lx.discard.seen bytes ∧ lx.discard.buffer.Covers bytes := by
  have hcovers : lx.discard.buffer.Covers bytes :=
    ⟨h.script, h.cursor, fun m hm => h.marks m (List.mem_of_mem_tail hm), h.ended⟩
  exact ⟨IndexedLexer.whole_discard lx.index, hcovers⟩

theorem seen_peekSignificant (h : lx.buffer.Covers bytes) :
    (lx.seen bytes).peekSignificant = (lx.peekSignificant.1, lx.peekSignificant.2.seen bytes) ∧
      lx.peekSignificant.2.buffer.Covers bytes := by
  obtain ⟨hread, hcovers⟩ := seen_readSignificant (covers_save h)
  obtain ⟨hback, hcovers'⟩ := seen_restore hcovers
  rw [Lexer.peekSignificant, seen_save, hread]
  exact ⟨Prod.ext rfl hback, hcovers'⟩

end BufferedLexer

end PageScript
