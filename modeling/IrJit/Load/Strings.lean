import Mathlib
import IrJit.Lib.Quoted

/-!
# Load.Strings — strings in the text of a function (`ir_print_escaped_str`, `yy_unescape_str`)

Texts are lists of bytes.  A `char` is a byte whose value may be signed or unsigned, and a pointer into a text is
the rest of the text from there on; behind its end stands a `NUL`.
-/

namespace IrJit.Load

abbrev Byte : Type := BitVec 8

/-- What the code depends on when it is compiled. -/
structure Platform where
  /-- `__aarch64__` -/
  aarch64 : Bool
  signedChar : Bool

/-- The value of a `char`. -/
def Platform.charValue (p : Platform) (ch : Byte) : ℤ := if p.signedChar then ch.toInt else ch.toNat

/-! ## Printing -/

/-- `fprintf(f, "%c", '0' + (ch % 8))`, where `%` rounds towards zero. -/
def printOctal (ch : ℤ) : Byte := BitVec.ofInt 8 (0x30 + Int.tmod ch 8)

/-- Is a character without an escape of its own printed in octal? -/
def isControl (p : Platform) (ch : Byte) : Bool :=
  if p.aarch64 then decide (p.charValue ch < 32)
  else decide (0 ≤ p.charValue ch) && decide (p.charValue ch < 32)

/-- The body of the loop of `ir_print_escaped_str`. -/
def printEscapedChar (p : Platform) (ch : Byte) : List Byte :=
  match ch with
  | 0x5c#8 => [0x5c, 0x5c] -- \\
  | 0x27#8 => [0x27] -- the single quote
  | 0x22#8 => [0x5c, 0x22] -- \"
  | 0x07#8 => [0x5c, 0x61] -- \a
  | 0x08#8 => [0x5c, 0x62] -- \b
  | 0x1b#8 => [0x5c, 0x65] -- \e
  | 0x0c#8 => [0x5c, 0x66] -- \f
  | 0x0a#8 => [0x5c, 0x6e] -- \n
  | 0x0d#8 => [0x5c, 0x72] -- \r
  | 0x09#8 => [0x5c, 0x74] -- \t
  | 0x0b#8 => [0x5c, 0x76] -- \v
  | 0x3f#8 => [0x5c, 0x3f] -- \?
  | ch =>
    if isControl p ch then
      [0x5c, printOctal (p.charValue ch >>> 6), printOctal (p.charValue ch >>> 3), printOctal (p.charValue ch)]
    else [ch]

/-- `ir_print_escaped_str`. -/
def printEscapedStr (p : Platform) : List Byte → List Byte
  | [] => []
  | ch :: s => printEscapedChar p ch ++ printEscapedStr p s

/-- A string as `ir_print_const` prints it, between quotes. -/
def quoted (p : Platform) (s : List Byte) : List Byte := 0x22 :: (printEscapedStr p s ++ [0x22])

/-! ## Reading -/

/-- The rule `STRING: /"([^"\\]|\\.)*"/`. -/
def stringToken : Language Byte := Quoted.token 0x22 0x5c

/-- The token as the scanner finds it: its contents `str`, `len`, and the text behind it. -/
def parseString : List Byte → Option (List Byte × List Byte)
  | 0x22#8 :: text => Quoted.scan 0x22 0x5c text
  | _ => none

inductive UnescapeError
  /-- "bad escape sequence" -/
  | badEscape
  /-- "unsupported escape sequence" -/
  | unsupportedEscape
  /-- More characters are consumed than there are: `len -= l` is less than zero. -/
  | overrun
  deriving DecidableEq

/-- `*str >= '0' && *str <= '7'`, the same for signed and unsigned characters. -/
def isOctal (ch : Byte) : Bool := decide (0x30 ≤ ch.toNat) && decide (ch.toNat ≤ 0x37)

/-- `yy_unescape_char`: the character, and how many were consumed. -/
def yyUnescapeChar (str : List Byte) : Except UnescapeError (Byte × ℕ) :=
  match str.getD 0 0 with
  | 0x5c#8 => .ok (0x5c, 1)
  | 0x27#8 => .ok (0x27, 1)
  | 0x22#8 => .ok (0x22, 1)
  | 0x61#8 => .ok (0x07, 1)
  | 0x62#8 => .ok (0x08, 1)
  | 0x65#8 => .ok (0x1b, 1)
  | 0x66#8 => .ok (0x0c, 1)
  | 0x6e#8 => .ok (0x0a, 1)
  | 0x72#8 => .ok (0x0d, 1)
  | 0x74#8 => .ok (0x09, 1)
  | 0x76#8 => .ok (0x0b, 1)
  | 0x3f#8 => .ok (0x3f, 1)
  | ch =>
    if isOctal ch then
      let ch := ch - 0x30
      if isOctal (str.getD 1 0) then
        let ch := ch * 8 + (str.getD 1 0 - 0x30)
        if isOctal (str.getD 2 0) then .ok (ch * 8 + (str.getD 2 0 - 0x30), 3) else .ok (ch, 2)
      else .ok (ch, 1)
    else .error .unsupportedEscape

/-- `yy_unescape_str`; the length it returns is the length of the list. -/
def yyUnescapeStr (len : ℕ) (str : List Byte) : Except UnescapeError (List Byte) :=
  match len with
  | 0 => .ok []
  | len + 1 =>
    if str.getD 0 0 ≠ 0x5c then do
      let p ← yyUnescapeStr len (str.drop 1)
      .ok (str.getD 0 0 :: p)
    else if len = 0 then .error .badEscape
    else
      match yyUnescapeChar (str.drop 1) with
      | .error e => .error e
      | .ok (ch, l) =>
        if len < l then .error .overrun
        else do
          let p ← yyUnescapeStr (len - l) (str.drop (1 + l))
          .ok (ch :: p)
termination_by len

/-! ## The round trip -/

/-- The text printed for `s` is one token, whatever stands behind it, and unescaping its contents gives `s`. -/
structure RoundTrips (p : Platform) (s : List Byte) : Prop where
  token : quoted p s ∈ stringToken
  once : ∀ t rest rest', t ∈ stringToken → quoted p s ++ rest = t ++ rest' → t = quoted p s
  scanned : ∀ rest, parseString (quoted p s ++ rest) = some (printEscapedStr p s, rest)
  unescaped : ∀ rest, yyUnescapeStr (printEscapedStr p s).length (printEscapedStr p s ++ 0x22 :: rest) = .ok s

/-- The bytes that are escaped so that they can be read back: not the negative ones on AArch64. -/
def Readable (p : Platform) (ch : Byte) : Prop := p.aarch64 = true → p.signedChar = true → ch.toNat < 128

variable {p : Platform} {ch : Byte} {s str rest : List Byte} {n : ℕ}

/-- A readable control character has the value of its byte. -/
theorem charValue_of_readable (hr : Readable p ch) (hc : isControl p ch = true) :
    p.charValue ch = ch.toNat ∧ ch.toNat < 32 := by
  have hvalue : p.charValue ch = ch.toNat ∨ (p.signedChar = true ∧ 128 ≤ ch.toNat ∧ p.charValue ch < 0) := by
    have hlt := ch.isLt
    unfold Platform.charValue
    rw [BitVec.toInt_eq_toNat_cond]
    split_ifs with hsigned hsmall
    · exact Or.inl rfl
    · exact Or.inr ⟨hsigned, by omega, by omega⟩
    · exact Or.inl rfl
  unfold isControl at hc
  rcases hvalue with hvalue | ⟨hsigned, hge, hneg⟩
  · rw [hvalue] at hc ⊢
    split_ifs at hc
    · rw [decide_eq_true_eq] at hc
      omega
    · rw [Bool.and_eq_true, decide_eq_true_eq, decide_eq_true_eq] at hc
      omega
  · split_ifs at hc with haarch64
    · have := hr haarch64 hsigned
      omega
    · rw [Bool.and_eq_true, decide_eq_true_eq] at hc
      omega

/-- The byte that three octal digits stand for. -/
def octalValue (d₂ d₁ d₀ : Byte) : Byte := ((d₂ - 0x30) * 8 + (d₁ - 0x30)) * 8 + (d₀ - 0x30)

/-- The three digits of a control character. -/
theorem printOctal_digits : ∀ k : ℕ, k < 32 →
    isOctal (printOctal ((k : ℤ) >>> 6)) = true ∧ isOctal (printOctal ((k : ℤ) >>> 3)) = true ∧
      isOctal (printOctal k) = true ∧
      octalValue (printOctal ((k : ℤ) >>> 6)) (printOctal ((k : ℤ) >>> 3)) (printOctal k) = BitVec.ofNat 8 k := by
  decide

/-- How a byte is printed: as itself, with a letter, or in octal. -/
inductive Printed (ch : Byte) : List Byte → Prop
  | plain : ch ≠ 0x22 → ch ≠ 0x5c → Printed ch [ch]
  | letter (d : Byte) : (∀ str, yyUnescapeChar (d :: str) = .ok (ch, 1)) → Printed ch [0x5c, d]
  | octal (d₂ d₁ d₀ : Byte) : isOctal d₂ = true → isOctal d₁ = true → isOctal d₀ = true →
      octalValue d₂ d₁ d₀ = ch → Printed ch [0x5c, d₂, d₁, d₀]

theorem printed (hr : Readable p ch) : Printed ch (printEscapedChar p ch) := by
  unfold printEscapedChar
  split
  case h_2 => exact .plain (by decide) (by decide)
  case h_13 hbackslash _ hquote _ _ _ _ _ _ _ _ _ =>
    split_ifs with hc
    · obtain ⟨hvalue, hlt⟩ := charValue_of_readable hr hc
      obtain ⟨h₂, h₁, h₀, heq⟩ := printOctal_digits ch.toNat hlt
      rw [hvalue]
      refine .octal _ _ _ h₂ h₁ h₀ ?_
      rw [heq, BitVec.ofNat_toNat, BitVec.setWidth_eq]
    · exact .plain hquote hbackslash
  all_goals exact .letter _ fun _ => rfl

/-! ## The token -/

theorem Printed.mem_body {u b : List Byte} (h : Printed ch u) (hb : b ∈ Quoted.body 0x22#8 0x5c#8) :
    u ++ b ∈ Quoted.body 0x22#8 0x5c#8 := by
  have hdigit : ∀ d : Byte, isOctal d = true → d ≠ 0x22 ∧ d ≠ 0x5c := by decide
  cases h with
  | plain hq he => exact Quoted.cons_mem_body hq he hb
  | letter d _ => exact Quoted.escape_mem_body hb
  | octal d₂ d₁ d₀ _ h₁ h₀ _ =>
    have h₀ := Quoted.cons_mem_body (hdigit d₀ h₀).1 (hdigit d₀ h₀).2 hb
    exact Quoted.escape_mem_body (Quoted.cons_mem_body (hdigit d₁ h₁).1 (hdigit d₁ h₁).2 h₀)

theorem printEscapedStr_mem_body (hr : ∀ ch ∈ s, Readable p ch) :
    printEscapedStr p s ∈ Quoted.body 0x22#8 0x5c#8 := by
  induction s with
  | nil => exact Quoted.nil_mem_body
  | cons ch s ih =>
    rw [printEscapedStr]
    exact (printed (hr ch List.mem_cons_self)).mem_body (ih fun c hc => hr c (List.mem_cons_of_mem ch hc))

/-! ## Unescaping -/

theorem yyUnescapeStr_plain (hne : ch ≠ 0x5c) :
    yyUnescapeStr (n + 1) (ch :: str) = (yyUnescapeStr n str).bind fun s => .ok (ch :: s) := by
  rw [yyUnescapeStr, List.getD_cons_zero, if_pos hne]
  rfl

theorem yyUnescapeStr_escape (hc : yyUnescapeChar (s ++ str) = .ok (ch, s.length)) (hpos : 0 < s.length) :
    yyUnescapeStr (s.length + n + 1) (0x5c :: (s ++ str)) = (yyUnescapeStr n str).bind fun s => .ok (ch :: s) := by
  rw [yyUnescapeStr, List.getD_cons_zero, if_neg (not_not.mpr rfl), if_neg (by omega), List.drop_one, List.tail_cons, hc]
  dsimp only
  rw [if_neg (by omega), Nat.add_sub_cancel_left, Nat.add_comm 1, List.drop_succ_cons, List.drop_left]
  rfl

theorem yyUnescapeChar_octal {d₂ d₁ d₀ : Byte} (h₂ : isOctal d₂ = true) (h₁ : isOctal d₁ = true)
    (h₀ : isOctal d₀ = true) : yyUnescapeChar (d₂ :: d₁ :: d₀ :: str) = .ok (octalValue d₂ d₁ d₀, 3) := by
  unfold yyUnescapeChar
  simp only [List.getD_cons_zero, List.getD_cons_succ]
  split
  case h_13 => rw [if_pos h₂, if_pos h₁, if_pos h₀]; rfl
  all_goals exact absurd h₂ (by decide)

/-- One character is read back. -/
theorem Printed.unescape {u : List Byte} (h : Printed ch u) :
    yyUnescapeStr (u.length + n) (u ++ str) = (yyUnescapeStr n str).bind fun s => .ok (ch :: s) := by
  cases h with
  | plain _ he =>
    rw [List.length_singleton, Nat.add_comm]
    exact yyUnescapeStr_plain he
  | letter d hd =>
    rw [← yyUnescapeStr_escape (s := [d]) (hd str) (by simp), Nat.add_right_comm]
    rfl
  | octal d₂ d₁ d₀ h₂ h₁ h₀ heq =>
    subst heq
    rw [← yyUnescapeStr_escape (s := [d₂, d₁, d₀]) (yyUnescapeChar_octal h₂ h₁ h₀) (by simp), Nat.add_right_comm]
    rfl

/-- A string of readable characters is read back, and what stands behind it comes next. -/
theorem unescape_printed (hr : ∀ ch ∈ s, Readable p ch) :
    yyUnescapeStr ((printEscapedStr p s).length + n) (printEscapedStr p s ++ str)
      = (yyUnescapeStr n str).bind fun t => .ok (s ++ t) := by
  induction s with
  | nil =>
    rw [printEscapedStr, List.length_nil, Nat.zero_add, List.nil_append]
    cases yyUnescapeStr n str <;> rfl
  | cons ch s ih =>
    have hrest := ih fun c hc => hr c (List.mem_cons_of_mem ch hc)
    rw [printEscapedStr, List.length_append, Nat.add_assoc, List.append_assoc,
      (printed (hr ch List.mem_cons_self)).unescape, hrest]
    cases yyUnescapeStr n str <;> rfl

/-- The escape of a negative character begins with no octal digit. -/
theorem printed_negative (h : ¬ Readable p ch) : ∃ d₂ d₁ d₀, printEscapedChar p ch = [0x5c, d₂, d₁, d₀] ∧
    ∀ str, yyUnescapeChar (d₂ :: str) = .error .unsupportedEscape := by
  obtain ⟨aarch64, signedChar⟩ := p
  simp only [Readable, Classical.not_imp, Nat.not_lt] at h
  obtain ⟨rfl, rfl, hge⟩ := h
  have htable : ∀ ch : Byte, 128 ≤ ch.toNat → printEscapedChar ⟨true, true⟩ ch
      = [0x5c, printOctal (ch.toInt >>> 6), printOctal (ch.toInt >>> 3), printOctal ch.toInt] ∧
      (printOctal (ch.toInt >>> 6) = 0x2e ∨ printOctal (ch.toInt >>> 6) = 0x2f) := by
    decide
  obtain ⟨hprint, hfirst⟩ := htable ch hge
  refine ⟨_, _, _, hprint, fun str => ?_⟩
  rcases hfirst with h | h <;> rw [h] <;> rfl

theorem unescape_negative (h : ¬ Readable p ch) :
    yyUnescapeStr ((printEscapedChar p ch).length + n) (printEscapedChar p ch ++ str) = .error .unsupportedEscape := by
  obtain ⟨d₂, d₁, d₀, hprint, hchar⟩ := printed_negative h
  have hlength : ([0x5c, d₂, d₁, d₀] : List Byte).length + n = (n + 3) + 1 := Nat.add_comm 4 n
  rw [hprint, hlength, yyUnescapeStr]
  simp [hchar]

/-! ## The whole string -/

theorem round_trips_of_readable (hr : ∀ ch ∈ s, Readable p ch) : RoundTrips p s := by
  have hbody := printEscapedStr_mem_body hr
  have htoken : quoted p s ∈ stringToken := Quoted.mem_token.mpr ⟨_, hbody, rfl⟩
  refine ⟨htoken, fun t rest rest' ht h => ?_, fun rest => ?_, fun rest => ?_⟩
  · exact (Quoted.token_unique (by decide) htoken ht h).symm
  · rw [quoted, List.cons_append, List.append_assoc]
    exact Quoted.scan_body (by decide) hbody
  · have h : yyUnescapeStr (_ + 0) (printEscapedStr p s ++ 0x22 :: rest) = _ := unescape_printed hr
    rw [yyUnescapeStr, Nat.add_zero] at h
    rw [h, Except.bind, List.append_nil]

/-- What is read back has only readable characters. -/
theorem readable_of_unescape {t : List Byte}
    (h : yyUnescapeStr ((printEscapedStr p s).length + n) (printEscapedStr p s ++ str) = .ok t) :
    ∀ ch ∈ s, Readable p ch := by
  induction s generalizing t with
  | nil => exact fun _ hch => absurd hch List.not_mem_nil
  | cons c s ih =>
    rw [printEscapedStr, List.length_append, Nat.add_assoc, List.append_assoc] at h
    by_cases hc : Readable p c
    · rw [(printed hc).unescape] at h
      intro ch hch
      rcases List.mem_cons.mp hch with rfl | hch
      · exact hc
      · cases hrest : yyUnescapeStr ((printEscapedStr p s).length + n) (printEscapedStr p s ++ str) with
        | error e => rw [hrest] at h; cases h
        | ok t' => exact ih hrest ch hch
    · rw [unescape_negative hc] at h
      cases h

theorem readable_of_round_trips (h : RoundTrips p s) : ∀ ch ∈ s, Readable p ch :=
  readable_of_unescape (n := 0) (h.unescaped [])

/-- **Strings are read back as they were printed, exactly when they have no negative character that AArch64
escapes.** -/
theorem escaped_string_round_trip (p : Platform) (s : List Byte) :
    RoundTrips p s ↔ (p.aarch64 = true → p.signedChar = true → ∀ ch ∈ s, ch.toNat < 128) := by
  have hiff : (∀ ch ∈ s, Readable p ch) ↔ (p.aarch64 = true → p.signedChar = true → ∀ ch ∈ s, ch.toNat < 128) :=
    ⟨fun h ha hs ch hch => h ch hch ha hs, fun h ch hch ha hs => h ha hs ch hch⟩
  rw [← hiff]
  exact ⟨readable_of_round_trips, round_trips_of_readable⟩

/-- The byte `255`, signed on AArch64, is printed as a backslash and three slashes. -/
theorem negative_char_escape : ¬ RoundTrips ⟨true, true⟩ [0xff] := by
  intro h
  have := readable_of_round_trips h 0xff List.mem_cons_self rfl rfl
  exact absurd this (by decide)

end IrJit.Load
