import PageScript.Lexer

/-!
# Literal strings

A byte of a literal string can be written in many ways: as itself, behind a backslash, by its digits
in base eight. However the bytes are written, they are read back, and the string ends with the
parenthesis that closes it.
-/
namespace PageScript

namespace LiteralString

/-- The letters that stand for another byte behind a backslash, with that byte. -/
def letters : List (UInt8 × UInt8) :=
  [(0x6E, 0x0A), (0x72, 0x0D), (0x74, 0x09), (0x62, 0x08), (0x66, 0x0C)]

/-- The value of digits in base eight. -/
def octalValue (digits : List UInt8) : Nat :=
  digits.foldl (fun n d => 8 * n + (d.toNat - 0x30)) 0

/-- Inside `depth` open parentheses, `text` is a way to write some bytes up to the parenthesis that
closes the string. -/
inductive Renders : (depth : Nat) → (bytes text : List UInt8) → Prop where
  | nil : Renders 0 [] []
  | raw {depth : Nat} {b : UInt8} {bytes text : List UInt8} (plain : b ∉ [0x28, 0x29, 0x5C, 0x0D])
      (more : Renders depth bytes text) : Renders depth (b :: bytes) (b :: text)
  | opened {depth : Nat} {bytes text : List UInt8} (more : Renders (depth + 1) bytes text) :
      Renders depth (0x28 :: bytes) (0x28 :: text)
  | closed {depth : Nat} {bytes text : List UInt8} (more : Renders depth bytes text) :
      Renders (depth + 1) (0x29 :: bytes) (0x29 :: text)
  | letter {depth : Nat} {e b : UInt8} {bytes text : List UInt8} (stands : (e, b) ∈ letters)
      (more : Renders depth bytes text) : Renders depth (b :: bytes) (0x5C :: e :: text)
  | escaped {depth : Nat} {b : UInt8} {bytes text : List UInt8} (noLetter : b ∉ letters.map Prod.fst)
      (noDigit : Byte.isOctalDigit b = false) (more : Renders depth bytes text) :
      Renders depth (b :: bytes) (0x5C :: b :: text)
  /-- With fewer than three digits, no further digit may follow. -/
  | octal {depth : Nat} {digits : List UInt8} {b : UInt8} {bytes text : List UInt8}
      (some : digits ≠ []) (few : digits.length ≤ 3)
      (octal : ∀ d ∈ digits, Byte.isOctalDigit d) (value : octalValue digits = b.toNat)
      (ends : digits.length = 3 ∨ ∀ next ∈ text.head?, Byte.isOctalDigit next = false)
      (more : Renders depth bytes text) : Renders depth (b :: bytes) (0x5C :: (digits ++ text))
  /-- A line feed as a line end of two bytes. -/
  | returnFeed {depth : Nat} {bytes text : List UInt8} (more : Renders depth bytes text) :
      Renders depth (0x0A :: bytes) (0x0D :: 0x0A :: text)
  /-- A line feed as a carriage return, which no line feed may follow. -/
  | loneReturn {depth : Nat} {bytes text : List UInt8} (ends : text.head? ≠ some 0x0A)
      (more : Renders depth bytes text) : Renders depth (0x0A :: bytes) (0x0D :: text)

/-- Digits are added up modulo 256. -/
theorem toNat_foldl_digits {digits : List UInt8} (h : ∀ d ∈ digits, Byte.isOctalDigit d)
    (value : UInt8) (n : Nat) (hn : n % 256 = value.toNat) :
    (digits.foldl (fun v d => v * 8 + (d - 0x30)) value).toNat =
      digits.foldl (fun n d => 8 * n + (d.toNat - 0x30)) n % 256 := by
  induction digits generalizing value n with
  | nil => exact hn.symm
  | cons d digits ih =>
    obtain ⟨hd, hmore⟩ := List.forall_mem_cons.mp h
    have hle : (0x30 : UInt8) ≤ d := by
      simp only [Byte.isOctalDigit, Bool.and_eq_true, decide_eq_true_eq] at hd
      exact hd.1
    have hsub : (d - 0x30).toNat = d.toNat - 0x30 := UInt8.toNat_sub_of_le _ _ hle
    refine ih hmore _ _ ?_
    rw [UInt8.toNat_add, UInt8.toNat_mul, hsub, ← hn]
    simp only [UInt8.reduceToNat]
    omega

theorem foldl_digits_eq {digits : List UInt8} {b : UInt8} (h : ∀ d ∈ digits, Byte.isOctalDigit d)
    (hvalue : octalValue digits = b.toNat) :
    digits.foldl (fun v d => v * 8 + (d - 0x30)) 0 = b := by
  apply UInt8.toNat_inj.mp
  rw [toNat_foldl_digits h 0 0 rfl]
  change octalValue digits % 256 = b.toNat
  rw [hvalue, Nat.mod_eq_of_lt b.toNat_lt]

end LiteralString

namespace Scanner

open LiteralString

variable {o : LexerOptions} {text : Array UInt8} {depth n : Nat} {b value : UInt8}
  {ws rest : List UInt8}

/-- Behind a carriage return, only a line feed is not read as elsewhere. -/
theorem run_afterReturn (h : b ≠ 0x0A) : run o (.string text depth (.plain true)) n (b :: rest) =
    run o (.string text depth (.plain false)) n (b :: rest) := by
  have hstep : (string text depth (.plain true)).step o b =
      (string text depth (.plain false)).step o b := by
    simp [step, stringStep, plainStep, h]
  rw [run, run, hstep]

/-- A byte that is no digit ends an octal escape and is read as if behind a byte of its own. -/
theorem run_afterOctal (h : Byte.isOctalDigit b = false) (digits : Nat) :
    run o (.string text depth (.octal value digits)) n (b :: rest) =
      run o (.string (keep o text value) depth (.plain false)) n (b :: rest) := by
  have hstep : (string text depth (.octal value digits)).step o b =
      (string (keep o text value) depth (.plain false)).step o b := by
    simp [step, stringStep, h]
  rw [run, run, hstep]

/-- The digits of an octal escape behind the first one. -/
theorem run_digits {digits : List UInt8} {count : Nat} (hcount : count < 3)
    (hfew : count + digits.length ≤ 3) (hoctal : ∀ d ∈ digits, Byte.isOctalDigit d)
    (hends : count + digits.length = 3 ∨ Byte.isOctalDigit b = false) :
    run o (.string text depth (.octal value count)) n (digits ++ b :: rest) =
      run o (.string (keep o text (digits.foldl (fun v d => v * 8 + (d - 0x30)) value)) depth
        (.plain false)) (n + digits.length) (b :: rest) := by
  induction digits generalizing value count n with
  | nil =>
    rw [List.length_nil, Nat.add_zero] at hends
    exact run_afterOctal (hends.resolve_left (Nat.ne_of_lt hcount)) count
  | cons d digits ih =>
    obtain ⟨hd, hmore⟩ := List.forall_mem_cons.mp hoctal
    rw [List.length_cons] at hfew hends
    have hlength : n + 1 + digits.length = n + (d :: digits).length := by
      rw [List.length_cons]
      omega
    by_cases hlast : count + 1 = 3
    · obtain rfl : digits = [] := List.length_eq_zero_iff.mp (by omega)
      have hstep : (string text depth (.octal value count)).step o d =
          .advance (.string (keep o text (value * 8 + (d - 0x30))) depth (.plain false)) := by
        simp [step, stringStep, hd, hlast]
      exact run_advance hstep
    · have hstep : (string text depth (.octal value count)).step o d =
          .advance (.string text depth (.octal (value * 8 + (d - 0x30)) (count + 1))) := by
        simp [step, stringStep, hd, hlast]
      rw [List.cons_append, run_advance hstep,
        ih (by omega) (by omega) hmore (hends.imp_left (by omega)), hlength]
      rfl

/-- An octal escape is read as the byte that it is the value of. -/
theorem run_octal {digits : List UInt8} {next : UInt8} (hsome : digits ≠ [])
    (hfew : digits.length ≤ 3) (hoctal : ∀ d ∈ digits, Byte.isOctalDigit d)
    (hvalue : octalValue digits = b.toNat)
    (hends : digits.length = 3 ∨ Byte.isOctalDigit next = false) :
    run o (.string text depth .backslash) n (digits ++ next :: rest) =
      run o (.string (keep o text b) depth (.plain false)) (n + digits.length) (next :: rest) := by
  obtain ⟨d, digits, rfl⟩ := List.exists_cons_of_ne_nil hsome
  rw [List.length_cons] at hfew hends
  have hstep : (string text depth .backslash).step o d =
      .advance (.string text depth (.octal (d - 0x30) 1)) := by
    simp [step, stringStep, hoctal d List.mem_cons_self]
  have hfirst : 0 * 8 + (d - 0x30) = d - 0x30 := by simp
  rw [← foldl_digits_eq hoctal hvalue, List.foldl_cons, hfirst, List.cons_append, run_advance hstep,
    run_digits (by decide) (by omega) (fun e he => hoctal e (List.mem_cons_of_mem _ he))
      (hends.imp_left (by omega)), List.length_cons, Nat.add_assoc, Nat.add_comm 1]

/-- What holds of the byte behind, be it of the text or the parenthesis that closes the string. -/
theorem exists_next {P : UInt8 → Prop} (ws rest : List UInt8) (h : ∀ b ∈ ws.head?, P b)
    (hclose : P 0x29) : ∃ next more, ws ++ 0x29 :: rest = next :: more ∧ P next := by
  cases ws with
  | nil => exact ⟨_, _, rfl, hclose⟩
  | cons b ws => exact ⟨_, _, rfl, h b rfl⟩

theorem unescape_letter {e : UInt8} (h : (e, b) ∈ letters) :
    Byte.isOctalDigit e = false ∧ unescape e = b := by
  simp only [letters, List.mem_cons, Prod.mk.injEq, List.not_mem_nil, or_false] at h
  rcases h with ⟨rfl, rfl⟩ | ⟨rfl, rfl⟩ | ⟨rfl, rfl⟩ | ⟨rfl, rfl⟩ | ⟨rfl, rfl⟩ <;> decide

theorem unescape_self (h : b ∉ letters.map Prod.fst) : unescape b = b := by
  simp only [letters, List.map_cons, List.map_nil, List.mem_cons, List.not_mem_nil, or_false,
    not_or] at h
  simp [unescape, h]

/-- Inside `depth` open parentheses, `ws` is read as some bytes, and then the string ends. -/
def ReadAs (o : LexerOptions) (rest : List UInt8) (depth : Nat) (bytes ws : List UInt8) : Prop :=
  ∀ (text : Array UInt8) (n : Nat), text.size + bytes.length ≤ o.maxTokenLength →
    run o (.string text depth (.plain false)) n (ws ++ 0x29 :: rest) =
      ⟨.string (text.toList ++ bytes), false, n + ws.length + 1, rest, false⟩

/-- A byte is read, and then what comes behind it. -/
theorem ReadAs.cons {depth' : Nat} {bytes ws : List UInt8} (piece : List UInt8)
    (more : ReadAs o rest depth' bytes ws)
    (hpiece : ∀ (text : Array UInt8) (n : Nat),
      run o (.string text depth (.plain false)) n (piece ++ (ws ++ 0x29 :: rest)) =
        run o (.string (keep o text b) depth' (.plain false)) (n + piece.length)
          (ws ++ 0x29 :: rest)) :
    ReadAs o rest depth (b :: bytes) (piece ++ ws) := by
  intro text n hfit
  rw [List.length_cons] at hfit
  rw [List.append_assoc, hpiece, keep_of_lt (by omega), more _ _ (by simp; omega)]
  simp [Nat.add_assoc]

theorem run_escaped {e : UInt8} (he : Byte.isOctalDigit e = false) (hb : unescape e = b) :
    run o (.string text depth (.plain false)) n (0x5C :: e :: rest) =
      run o (.string (keep o text b) depth (.plain false)) (n + 2) rest := by
  have hbackslash : (string text depth (.plain false)).step o 0x5C =
      .advance (.string text depth .backslash) := rfl
  have hstep : (string text depth .backslash).step o e =
      .advance (.string (keep o text b) depth (.plain false)) := by
    simp [step, stringStep, he, hb]
  rw [run_advance hbackslash, run_advance hstep]

/-- However some bytes are written, they are read. -/
theorem readAs_of_renders (o : LexerOptions) (rest : List UInt8) {bytes ws : List UInt8}
    (h : Renders depth bytes ws) : ReadAs o rest depth bytes ws := by
  induction h with
  | nil =>
    intro text n _
    have hclose : (string text 0 (.plain false)).step o 0x29 = .finishAfter (.string text.toList) :=
      rfl
    rw [List.nil_append, run_finishAfter hclose, List.append_nil]
    rfl
  | @raw depth b _ _ hplain _ ih =>
    refine .cons [b] ih fun text n => run_advance ?_
    simp only [List.mem_cons, List.not_mem_nil, or_false, not_or] at hplain
    simp [step, stringStep, plainStep, hplain]
  | opened _ ih => exact .cons [0x28] ih fun _ _ => run_advance rfl
  | closed _ ih => exact .cons [0x29] ih fun _ _ => run_advance rfl
  | @letter depth e _ _ _ hstands _ ih =>
    obtain ⟨hdigit, hb⟩ := unescape_letter hstands
    exact .cons [0x5C, e] ih fun _ _ => run_escaped hdigit hb
  | @escaped depth b _ _ hletter hdigit _ ih =>
    exact .cons [0x5C, b] ih fun _ _ => run_escaped hdigit (unescape_self hletter)
  | @octal depth digits b _ ws hsome hfew hoctal hvalue hends _ ih =>
    refine .cons (0x5C :: digits) ih fun text n => ?_
    have hbackslash : (string text depth (.plain false)).step o 0x5C =
        .advance (.string text depth .backslash) := rfl
    rw [List.cons_append, run_advance hbackslash, List.length_cons, Nat.add_comm digits.length,
      ← Nat.add_assoc]
    obtain ⟨next, more, hnext, hstop⟩ :=
      exists_next (P := fun b => digits.length = 3 ∨ Byte.isOctalDigit b = false) ws rest
        (fun b hb => hends.imp_right fun h => h b hb) (.inr rfl)
    rw [hnext, run_octal hsome hfew hoctal hvalue hstop]
  | @returnFeed depth _ _ _ ih =>
    refine .cons [0x0D, 0x0A] ih fun text n => ?_
    have hreturn : (string text depth (.plain false)).step o 0x0D =
      .advance (.string (keep o text 0x0A) depth (.plain true)) := rfl
    exact (run_advance hreturn).trans (run_advance rfl)
  | @loneReturn depth _ ws hends _ ih =>
    refine .cons [0x0D] ih fun text n => ?_
    have hreturn : (string text depth (.plain false)).step o 0x0D =
      .advance (.string (keep o text 0x0A) depth (.plain true)) := rfl
    obtain ⟨next, more, hnext, hne⟩ :=
      exists_next (P := (· ≠ 0x0A)) ws rest (fun b hb h => hends (h ▸ hb)) (by decide)
    rw [hnext]
    exact (run_advance hreturn).trans (run_afterReturn hne)

end Scanner

/-- A literal string is read as the bytes that it is written for, whatever comes behind it. -/
theorem scan_renders {o : LexerOptions} {bytes ws : List UInt8}
    (h : LiteralString.Renders 0 bytes ws) (hfit : bytes.length ≤ o.maxTokenLength)
    (rest : List UInt8) :
    scan o (0x28 :: (ws ++ 0x29 :: rest)) = ⟨.string bytes, false, ws.length + 2, rest, false⟩ := by
  have hopen : Scanner.start.step o 0x28 = .advance (.string #[] 0 (.plain false)) := rfl
  have hread := Scanner.readAs_of_renders o rest h #[] 1 (by simpa using hfit)
  have hlength : 0 + 1 + ws.length + 1 = ws.length + 2 := by omega
  rw [scan, Scanner.run_advance hopen, hread, hlength]
  rfl

/-- Reading a literal string gives the bytes that it is written for, and moves right behind the
parenthesis that closes it. -/
theorem Lexer.read_literal (lx : Lexer) {bytes ws rest : List UInt8}
    (h : LiteralString.Renders 0 bytes ws) (hfit : bytes.length ≤ lx.options.maxTokenLength)
    (hahead : lx.cursor.ahead = 0x28 :: (ws ++ 0x29 :: rest)) :
    lx.read = (.ok (.string bytes),
      { lx with
        cursor := ⟨lx.position + (ws.length + 2), rest⟩
        unterminated := false }) := by
  have hscan := scan_renders h hfit rest
  cases hending : lx.ending <;>
    simp [read, hahead, hscan, hending, Ending.met?, after, position]

/-- The string `(\))\5\n\53` with a line end of two bytes, `\0531\\` and a carriage return. -/
theorem Lexer.read_literal_mixed :
    let bytes : List UInt8 :=
      [0x28, 0x29, 0x29, 0x05, 0x0A, 0x2B, 0x0A, 0x2B, 0x31, 0x5C, 0x0A]
    let ws : List UInt8 :=
      [0x28, 0x5C, 0x29, 0x29, 0x5C, 0x35, 0x5C, 0x6E, 0x5C, 0x35, 0x33, 0x0D, 0x0A, 0x5C, 0x30, 0x35,
        0x33, 0x31, 0x5C, 0x5C, 0x0D]
    let lx := ofBytes (0x28 :: (ws ++ 0x29 :: [0x0A]))
    LiteralString.Renders 0 bytes ws ∧ bytes.length ≤ lx.options.maxTokenLength ∧
      lx.cursor.ahead = 0x28 :: (ws ++ 0x29 :: [0x0A]) ∧
      lx.read = (.ok (.string bytes), { lx with cursor := ⟨23, [0x0A]⟩, unterminated := false }) := by
  intro bytes ws lx
  have hrenders : LiteralString.Renders 0 bytes ws := by
    refine .opened (.escaped (by decide) (by decide) (.closed ?_))
    refine @LiteralString.Renders.octal _ [0x35] _ _ _ (by decide) (by decide)
      (by simp [Byte.isOctalDigit]) rfl (.inr (by simp [Byte.isOctalDigit])) (.letter (by decide) ?_)
    refine @LiteralString.Renders.octal _ [0x35, 0x33] _ _ _ (by decide) (by decide)
      (by simp [Byte.isOctalDigit]) rfl (.inr (by simp [Byte.isOctalDigit])) (.returnFeed ?_)
    refine @LiteralString.Renders.octal _ [0x30, 0x35, 0x33] _ _ _ (by decide) (by decide)
      (by simp [Byte.isOctalDigit]) rfl (.inl rfl) (.raw (by decide) ?_)
    exact .escaped (by decide) (by decide) (.loneReturn (by decide) .nil)
  exact ⟨hrenders, by decide, rfl, lx.read_literal hrenders (by decide) rfl⟩

end PageScript
