import PageScript.Proofs.Spelling

/-!
# Strings in base sixteen

Between angle brackets a string has two digits for each of its bytes. Bytes below `0` may stand
anywhere, also between the two digits of a byte, and a last zero may be left out. However it is
written, the string is read as its bytes, and ends with the closing bracket.
-/
namespace PageScript

namespace HexString

/-- The digits of a value below sixteen, in both letter cases. -/
def digits (n : Nat) : List UInt8 :=
  if n < 10 then [0x30 + UInt8.ofNat n]
  else [0x41 + UInt8.ofNat (n - 10), 0x61 + UInt8.ofNat (n - 10)]

/-- A way to write some bytes. The high digit of `begun`, if there is such a byte, stands already in
front of `text`, and its low digit is the next one. -/
inductive Renders : (begun : Option UInt8) → (bytes text : List UInt8) → Prop where
  | nil : Renders none [] []
  | skipped {begun : Option UInt8} {c : UInt8} {bytes text : List UInt8} (below : c < 0x30)
      (more : Renders begun bytes text) : Renders begun bytes (c :: text)
  | high {b d : UInt8} {bytes text : List UInt8} (digit : d ∈ digits (b.toNat / 16))
      (more : Renders (some b) bytes text) : Renders none (b :: bytes) (d :: text)
  | low {b d : UInt8} {bytes text : List UInt8} (digit : d ∈ digits (b.toNat % 16))
      (more : Renders none bytes text) : Renders (some b) bytes (d :: text)
  /-- The last digit is left out. -/
  | omitted {b : UInt8} (zero : b.toNat % 16 = 0) : Renders (some b) [] []

/-- A digit has the value that it is written for, and is neither skipped nor a bracket. -/
theorem digit_cases {n : Nat} (hn : n < 16) : ∀ d ∈ digits n,
    Byte.hexValue d = UInt8.ofNat n ∧ 0x30 ≤ d ∧ d ≠ 0x3C ∧ d ≠ 0x3E := by
  revert n
  decide +kernel

theorem high_lt (b : UInt8) : b.toNat / 16 < 16 := Nat.div_lt_of_lt_mul b.toNat_lt

theorem low_lt (b : UInt8) : b.toNat % 16 < 16 := Nat.mod_lt _ (by decide)

/-- The two digits of a byte put together. -/
theorem join_digits (b : UInt8) :
    UInt8.ofNat (b.toNat / 16) <<< 4 ||| UInt8.ofNat (b.toNat % 16) = b := by
  have hb : b.toNat < 256 := b.toNat_lt
  have hjoin := @Nat.shiftLeft_add_eq_or_of_lt 4 _ (low_lt b) (b.toNat / 16)
  apply UInt8.toNat_inj.mp
  have hhigh : (UInt8.ofNat (b.toNat / 16) <<< 4).toNat = (b.toNat / 16) <<< 4 := by
    rw [UInt8.toNat_shiftLeft]
    simp only [UInt8.toNat_ofNat', UInt8.reduceToNat, Nat.shiftLeft_eq, Nat.reduceMod,
      Nat.reducePow]
    omega
  have hrest : (UInt8.ofNat (b.toNat % 16)).toNat = b.toNat % 16 := by
    simp only [UInt8.toNat_ofNat']
    omega
  rw [UInt8.toNat_or, hhigh, hrest, ← hjoin, Nat.shiftLeft_eq]
  omega

/-- The value of the high digit that stands in front. -/
def front (begun : Option UInt8) : List UInt8 :=
  begun.toList.map fun b => UInt8.ofNat (b.toNat / 16)

variable {begun : Option UInt8} {bytes text : List UInt8}

/-- The digits of a text, with those below `0` skipped, are put together to the bytes. -/
theorem Renders.decode (h : Renders begun bytes text) :
    Scanner.pairDigits (front begun ++ (text.filter (0x30 ≤ ·)).map Byte.hexValue) =
      begun.toList ++ bytes := by
  induction h with
  | nil => rfl
  | @skipped begun c bytes text below more ih =>
    have hskip : ¬ 0x30 ≤ c := UInt8.not_le.mpr below
    simpa [hskip] using ih
  | @high b d bytes text digit more ih =>
    obtain ⟨hvalue, hle, -⟩ := digit_cases (high_lt b) d digit
    simpa [front, hvalue, hle] using ih
  | @low b d bytes text digit more ih =>
    obtain ⟨hvalue, hle, -⟩ := digit_cases (low_lt b) d digit
    simpa [front, hvalue, hle, Scanner.pairDigits, join_digits] using ih
  | @omitted b zero =>
    have hjoin := join_digits b
    rw [zero] at hjoin
    simpa [front, Scanner.pairDigits] using hjoin

/-- No byte of a text begins a dictionary or ends the string. -/
theorem Renders.ne_bracket (h : Renders begun bytes text) : ∀ c ∈ text, c ≠ 0x3C ∧ c ≠ 0x3E := by
  induction h with
  | nil | omitted => simp
  | @skipped begun c bytes text below more ih =>
    refine List.forall_mem_cons.mpr ⟨?_, ih⟩
    constructor <;>
    · rintro rfl
      exact absurd below (by decide)
  | @high b d bytes text digit more ih =>
    exact List.forall_mem_cons.mpr ⟨(digit_cases (high_lt b) d digit).2.2, ih⟩
  | @low b d bytes text digit more ih =>
    exact List.forall_mem_cons.mpr ⟨(digit_cases (low_lt b) d digit).2.2, ih⟩

end HexString

namespace Scanner

variable {o : LexerOptions} {n : Nat} {c : UInt8} {ws rest : List UInt8}

/-- Up to its closing bracket a string in base sixteen keeps all bytes. -/
theorem run_hex (hws : ∀ c ∈ ws, c ≠ 0x3E) (hfit : ws.length ≤ o.maxTokenLength) :
    run o (.hex #[]) n (ws ++ 0x3E :: rest) =
      ⟨hexToken ws.toArray, false, n + ws.length + 1, rest, false⟩ := by
  have hstep (text : Array UInt8) (_ : True) (c : UInt8) (hc : c ∈ ws) :
      (hex text).step o c = .advance (.hex (keep o text c)) ∧ True :=
    ⟨if_neg (hws c hc), trivial⟩
  have hclose : (hex ws.toArray).step o 0x3E = .finishAfter (hexToken ws.toArray) := rfl
  rw [run_keep (f := hex) (fun _ => True) hstep (by simpa using hfit) trivial]
  simpa using run_finishAfter hclose

/-- Any other byte than a second bracket begins a string in base sixteen. -/
theorem run_afterLess (hc : c ≠ 0x3C) :
    run o .afterLess n (c :: rest) = run o (.hex #[]) n (c :: rest) := by
  have hstep : afterLess.step o c = (hex #[]).step o c := if_neg hc
  rw [run, run, hstep]

end Scanner

/-- A string in base sixteen is read as the bytes that it is written for, whatever comes behind. -/
theorem scan_hex {o : LexerOptions} {bytes ws : List UInt8} (h : HexString.Renders none bytes ws)
    (hfit : ws.length ≤ o.maxTokenLength) (rest : List UInt8) :
    scan o (0x3C :: (ws ++ 0x3E :: rest)) = ⟨.string bytes, false, ws.length + 2, rest, false⟩ := by
  have hopen : Scanner.start.step o 0x3C = .advance .afterLess := rfl
  have hfirst : ∀ c ∈ (ws ++ 0x3E :: rest).head?, c ≠ 0x3C := by
    cases ws with
    | nil => simp
    | cons c ws => simpa using (h.ne_bracket c List.mem_cons_self).1
  have hless : Scanner.run o .afterLess 1 (ws ++ 0x3E :: rest) =
      Scanner.run o (.hex #[]) 1 (ws ++ 0x3E :: rest) := by
    obtain ⟨c, more, hcons⟩ := List.exists_cons_of_ne_nil (show ws ++ 0x3E :: rest ≠ [] by simp)
    rw [hcons] at hfirst ⊢
    exact Scanner.run_afterLess (hfirst c rfl)
  have htoken : Scanner.hexToken ws.toArray = .string bytes := by
    simpa [Scanner.hexToken, HexString.front] using h.decode
  rw [scan, Scanner.run_advance hopen, hless,
    Scanner.run_hex (fun c hc => (h.ne_bracket c hc).2) hfit, htoken]
  congr 1
  omega

/-- Reading a string in base sixteen gives the bytes that it is written for, and moves right behind
its closing bracket. -/
theorem Lexer.read_hex (lx : Lexer) {bytes ws rest : List UInt8}
    (h : HexString.Renders none bytes ws) (hfit : ws.length ≤ lx.options.maxTokenLength)
    (hahead : lx.cursor.ahead = 0x3C :: (ws ++ 0x3E :: rest)) :
    lx.read = (.ok (.string bytes),
      { lx with
        cursor := ⟨lx.position + (ws.length + 2), rest⟩
        unterminated := false }) := by
  have hscan := scan_hex h hfit rest
  cases hending : lx.ending <;>
    simp [read, hahead, hscan, hending, Ending.met?, after, position]

/-- The string `<9(0%1` with a line end and `f#A/ >`, of which the last zero is left out. -/
theorem Lexer.read_hex_mixed :
    let bytes : List UInt8 := [0x90, 0x1F, 0xA0]
    let ws : List UInt8 :=
      [0x39, 0x28, 0x30, 0x25, 0x31, 0x0D, 0x0A, 0x66, 0x23, 0x41, 0x2F, 0x20]
    let lx := ofBytes (0x3C :: (ws ++ 0x3E :: [0x3E]))
    HexString.Renders none bytes ws ∧ ws.length ≤ lx.options.maxTokenLength ∧
      lx.cursor.ahead = 0x3C :: (ws ++ 0x3E :: [0x3E]) ∧
      lx.read =
        (.ok (.string bytes), { lx with cursor := ⟨14, [0x3E]⟩, unterminated := false }) := by
  intro bytes ws lx
  have hrenders : HexString.Renders none bytes ws := by
    refine .high (by decide) (.skipped (by decide) (.low (by decide) (.skipped (by decide) ?_)))
    refine .high (by decide) (.skipped (by decide) (.skipped (by decide) (.low (by decide) ?_)))
    refine .skipped (by decide) (.high (by decide) (.skipped (by decide) (.skipped (by decide) ?_)))
    exact .omitted (by decide)
  have hfit : ws.length ≤ lx.options.maxTokenLength := by decide
  exact ⟨hrenders, hfit, rfl, lx.read_hex hrenders hfit rfl⟩

end PageScript
