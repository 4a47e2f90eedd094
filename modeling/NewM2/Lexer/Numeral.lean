import Mathlib
import NewM2.Lexer.Coverage

/-!
# Integer literals

`Spelling n text` lists the ways to write a number, whatever its size. The base is known only behind
the digits, all of which a scanner takes as hexadecimal ones (`takeWhile_run`), so a numeral ends where
no hexadecimal digit follows, no H, and no point that begins a fraction (`Ends`). A point behind an
octal or binary numeral is refused as the point of a real number.
-/

namespace NewM2.Lexer
open Utf8

/-! ## Spellings -/

def isOctalDigit (c : UInt8) : Bool := byte '0' ≤ c && c ≤ byte '7'

def isBinaryDigit (c : UInt8) : Bool := c = byte '0' || c = byte '1'

/-- The number of some digits, the last of which counts ones. -/
def value (radix : Nat) (digits : Bytes) : Nat := Nat.ofDigits radix (digits.map digitValue).reverse

/-- The ways to write the number `n`. -/
inductive Spelling : Nat → Bytes → Prop
  | decimal {digits : Bytes} (hne : digits ≠ []) (hdigits : digits.all isAsciiDigit) :
      Spelling (value 10 digits) digits
  | hex {c : UInt8} {digits : Bytes} {suffix : Char} (hc : isAsciiDigit c)
      (hdigits : digits.all isHexDigit) (hsuffix : suffix = 'H' ∨ suffix = 'h') :
      Spelling (value 16 (c :: digits)) (c :: digits ++ [byte suffix])
  | octal {digits : Bytes} {suffix : Char} (hne : digits ≠ []) (hdigits : digits.all isOctalDigit)
      (hsuffix : suffix = 'B' ∨ suffix = 'b') : Spelling (value 8 digits) (digits ++ [byte suffix])
  | binary {digits : Bytes} {suffix : Char} (hne : digits ≠ []) (hdigits : digits.all isBinaryDigit)
      (hsuffix : suffix = 'A' ∨ suffix = 'a') : Spelling (value 2 digits) (digits ++ [byte suffix])

/-- The H of a hexadecimal numeral. -/
def isHexSuffix (c : UInt8) : Bool := c = byte 'H' || c = byte 'h'

/-- `rest` does not continue a run of digits. -/
structure Stops (rest : Bytes) : Prop where
  digit : ∀ c ∈ rest.head?, !isHexDigit c
  suffix : ∀ c ∈ rest.head?, !isHexSuffix c
  fraction : rest.head? = some (byte '.') → rest.tail.head? = some (byte '.')

/-- `rest` does not continue the numeral `text`. -/
def Ends (text rest : Bytes) : Prop := text.getLast?.any isHexSuffix ∨ Stops rest

theorem ofDigits_eq_value (radix : Nat) (digits : Bytes) : ofDigits radix digits = value radix digits := by
  induction digits using List.reverseRecOn with
  | nil => rfl
  | append_singleton digits d ih =>
    rw [ofDigits, List.foldl_append, List.foldl_cons, List.foldl_nil, ← ofDigits, ih, value, value,
      List.map_append, List.reverse_append, List.map_singleton, List.reverse_singleton,
      List.singleton_append, Nat.ofDigits_cons, Nat.add_comm, Nat.mul_comm]

theorem isAsciiDigit_of_isOctalDigit {c : UInt8} (h : isOctalDigit c) : isAsciiDigit c := by
  simp only [isOctalDigit, Bool.and_eq_true, decide_eq_true_eq] at h
  simp only [isAsciiDigit, Bool.and_eq_true, decide_eq_true_eq]
  exact ⟨h.1, UInt8.le_trans h.2 (by decide)⟩

theorem isOctalDigit_of_isBinaryDigit {c : UInt8} (h : isBinaryDigit c) : isOctalDigit c := by
  simp only [isBinaryDigit, Bool.or_eq_true, decide_eq_true_eq] at h
  rcases h with rfl | rfl <;> decide

theorem isHexDigit_of_isAsciiDigit {c : UInt8} (h : isAsciiDigit c) : isHexDigit c := by
  simp [isHexDigit, h]

/-! ## The scanner on digits -/

/-- A run of hexadecimal digits and what follows. -/
theorem takeWhile_run {run rest : Bytes} (hrun : run.all isHexDigit) (hrest : ∀ c ∈ rest.head?, !isHexDigit c) :
    (run ++ rest).takeWhile isHexDigit = run := by
  rw [List.takeWhile_append_of_pos (List.all_eq_true.1 hrun)]
  rcases rest with - | ⟨c, rest⟩
  · simp
  · have hc : ¬ isHexDigit c := by simpa using hrest c rfl
    rw [List.takeWhile_cons_of_neg hc, List.append_nil]

/-- The result of a conversion: the number, or that it is too large. -/
def Converted (start : SourcePosition) (value n : Nat) (r : Except Failure (TokenKind × Nat)) : Prop :=
  (value < 2 ^ 64 → r = .ok (.integer value.toUInt64, n)) ∧
    (2 ^ 64 ≤ value → ∃ message, r = .error (.error message start))

theorem parseU64_converted (start : SourcePosition) (what : String) (radix : Nat) (digits : Bytes) (n : Nat) :
    Converted start (value radix digits) n (parseU64 start what radix digits n) := by
  unfold parseU64 fromStrRadix
  rw [ofDigits_eq_value]
  constructor
  · intro h
    rw [if_pos h]
  · intro h
    rw [if_neg (Nat.not_lt.2 h)]
    exact ⟨_, rfl⟩

theorem lexNumber_hex (start : SourcePosition) (rest : Bytes) {run : Bytes} {suffix : Char} (hrun : run.all isHexDigit)
    (hsuffix : suffix = 'H' ∨ suffix = 'h') :
    ∃ what, lexNumber start (run ++ byte suffix :: rest) = parseU64 start what 16 run (run.length + 1) := by
  have htake : (run ++ byte suffix :: rest).takeWhile isHexDigit = run := by
    refine takeWhile_run hrun ?_
    rcases hsuffix with rfl | rfl
    · exact fun c hc => Option.some.inj hc ▸ by decide
    · exact fun c hc => Option.some.inj hc ▸ by decide
  obtain ⟨text, htext⟩ := unwrapText_ascii fun x hx => isHexDigit_ascii (List.all_eq_true.1 hrun x hx)
  have hhex : some (byte suffix) = some (byte 'H') ∨ some (byte suffix) = some (byte 'h') := by
    rcases hsuffix with rfl | rfl
    · exact .inl rfl
    · exact .inr rfl
  simp only [lexNumber, htake, htext, bind, Except.bind, List.drop_left, List.head?_cons, if_pos hhex]
  exact ⟨_, rfl⟩

theorem Stops.not_hex {rest : Bytes} (h : Stops rest) :
    ¬ (rest.head? = some (byte 'H') ∨ rest.head? = some (byte 'h')) := by
  rintro (hc | hc)
  · exact absurd (h.suffix _ hc) (by decide)
  · exact absurd (h.suffix _ hc) (by decide)

theorem Stops.not_real {rest : Bytes} (h : Stops rest) :
    ¬ (rest.head? = some (byte '.') ∧ rest.tail.head? ≠ some (byte '.')) :=
  fun hc => hc.2 (h.fraction hc.1)

theorem lexNumber_decimal (start : SourcePosition) {run rest : Bytes} (hrun : run.all isAsciiDigit)
    (hrest : Stops rest) (hkind : suffixKind run.getLast? = none) :
    ∃ what, lexNumber start (run ++ rest) = parseU64 start what 10 run run.length := by
  have hhex : run.all isHexDigit :=
    List.all_eq_true.2 fun c hc => isHexDigit_of_isAsciiDigit (List.all_eq_true.1 hrun c hc)
  have htake : (run ++ rest).takeWhile isHexDigit = run := takeWhile_run hhex hrest.digit
  obtain ⟨text, htext⟩ := unwrapText_ascii fun x hx => isHexDigit_ascii (List.all_eq_true.1 hhex x hx)
  simp only [lexNumber, htake, htext, bind, Except.bind, List.drop_left, if_neg hrest.not_hex,
    if_neg hrest.not_real, hkind, if_pos hrun]
  exact ⟨_, rfl⟩

theorem lexNumber_suffixed (start : SourcePosition) {run rest : Bytes} {kind : Char}
    (hrun : run.all isHexDigit) (hrest : Stops rest) (hkind : suffixKind run.getLast? = some kind) :
    ∃ text, lexNumber start (run ++ rest) = lexSuffixed start run text kind := by
  have htake : (run ++ rest).takeWhile isHexDigit = run := takeWhile_run hrun hrest.digit
  obtain ⟨text, htext⟩ := unwrapText_ascii fun x hx => isHexDigit_ascii (List.all_eq_true.1 hrun x hx)
  simp only [lexNumber, htake, htext, bind, Except.bind, List.drop_left, if_neg hrest.not_hex,
    if_neg hrest.not_real, hkind]
  exact ⟨text, rfl⟩

theorem suffixKind_of_isAsciiDigit {c : UInt8} (h : isAsciiDigit c) : suffixKind (some c) = none := by
  have hne : ∀ d : UInt8, ¬ isAsciiDigit d → c ≠ d := fun d hd hcd => hd (hcd ▸ h)
  have hB := hne (byte 'B') (by decide)
  have hb := hne (byte 'b') (by decide)
  have hC := hne (byte 'C') (by decide)
  have hc := hne (byte 'c') (by decide)
  have hA := hne (byte 'A') (by decide)
  have ha := hne (byte 'a') (by decide)
  simp only [suffixKind, hB, hb, hC, hc, hA, ha, or_self, if_false]

theorem not_isHexSuffix_of_isHexDigit {c : UInt8} (h : isHexDigit c) : ¬ isHexSuffix c := by
  intro hc
  simp only [isHexSuffix, Bool.or_eq_true, decide_eq_true_eq] at hc
  rcases hc with rfl | rfl
  · exact absurd h (by decide)
  · exact absurd h (by decide)

theorem Ends.stops {text rest : Bytes} {last : UInt8} (h : Ends text rest)
    (hlast : text.getLast? = some last) (hhex : isHexDigit last) : Stops rest := by
  refine h.resolve_left ?_
  rw [hlast]
  exact not_isHexSuffix_of_isHexDigit hhex

theorem lexSuffixed_octal (start : SourcePosition) {digits : Bytes} (last : UInt8) (text : String)
    (hne : digits ≠ []) (hdigits : digits.all isOctalDigit) :
    ∃ what, lexSuffixed start (digits ++ [last]) text 'B' =
      parseU64 start what 8 digits (digits ++ [last]).length := by
  have hall : digits.all (fun b => byte '0' ≤ b && b ≤ byte '7') := hdigits
  simp only [lexSuffixed, List.dropLast_concat, hall, hne]
  exact ⟨_, rfl⟩

theorem lexSuffixed_binary (start : SourcePosition) {digits : Bytes} (last : UInt8) (text : String)
    (hne : digits ≠ []) (hdigits : digits.all isBinaryDigit) :
    ∃ what, lexSuffixed start (digits ++ [last]) text 'A' =
      parseU64 start what 2 digits (digits ++ [last]).length := by
  have hall : digits.all (fun b => b = byte '0' || b = byte '1') := hdigits
  simp only [lexSuffixed, List.dropLast_concat, hall, hne]
  exact ⟨_, rfl⟩

theorem all_isHexDigit_concat {p : UInt8 → Bool} {digits : Bytes} {last : UInt8} (hdigits : digits.all p)
    (hp : ∀ c, p c → isHexDigit c) (hlast : isHexDigit last) : (digits ++ [last]).all isHexDigit := by
  rw [List.all_eq_true]
  refine List.forall_mem_append.2 ⟨fun c hc => hp c ?_, List.forall_mem_singleton.2 hlast⟩
  exact List.all_eq_true.1 hdigits c hc

/-- A numeral that ends is scanned as the number that it denotes. -/
theorem lexNumber_converted {n : Nat} {text rest : Bytes} (h : Spelling n text) (hends : Ends text rest)
    (start : SourcePosition) : Converted start n text.length (lexNumber start (text ++ rest)) := by
  cases h with
  | decimal hne hdigits =>
    have hlast := List.all_eq_true.1 hdigits _ (List.getLast_mem hne)
    have hget := List.getLast?_eq_some_getLast hne
    have hstops := hends.stops hget (isHexDigit_of_isAsciiDigit hlast)
    have hkind := hget ▸ suffixKind_of_isAsciiDigit hlast
    obtain ⟨what, hlex⟩ := lexNumber_decimal start hdigits hstops hkind
    rw [hlex]
    exact parseU64_converted start what 10 text text.length
  | @hex c digits suffix hc hdigits hsuffix =>
    have hrun : (c :: digits).all isHexDigit := by
      rw [List.all_cons, isHexDigit_of_isAsciiDigit hc, hdigits, Bool.and_self]
    obtain ⟨what, hlex⟩ := lexNumber_hex start rest hrun hsuffix
    rw [List.append_assoc, List.singleton_append, hlex, List.length_append, List.length_singleton]
    exact parseU64_converted start what 16 (c :: digits) _
  | @octal digits suffix hne hdigits hsuffix =>
    have hlast : isHexDigit (byte suffix) ∧ suffixKind (some (byte suffix)) = some 'B' := by
      rcases hsuffix with rfl | rfl <;> decide
    have hrun := all_isHexDigit_concat hdigits
      (fun c h => isHexDigit_of_isAsciiDigit (isAsciiDigit_of_isOctalDigit h)) hlast.1
    have hget : (digits ++ [byte suffix]).getLast? = some (byte suffix) := List.getLast?_concat
    obtain ⟨s, hlex⟩ := lexNumber_suffixed start hrun (hends.stops hget hlast.1) (hget ▸ hlast.2)
    obtain ⟨what, hsuffixed⟩ := lexSuffixed_octal start (byte suffix) s hne hdigits
    rw [hlex, hsuffixed]
    exact parseU64_converted start what 8 digits _
  | @binary digits suffix hne hdigits hsuffix =>
    have hlast : isHexDigit (byte suffix) ∧ suffixKind (some (byte suffix)) = some 'A' := by
      rcases hsuffix with rfl | rfl <;> decide
    have hrun := all_isHexDigit_concat hdigits
      (fun c h => isHexDigit_of_isAsciiDigit (isAsciiDigit_of_isOctalDigit
        (isOctalDigit_of_isBinaryDigit h))) hlast.1
    have hget : (digits ++ [byte suffix]).getLast? = some (byte suffix) := List.getLast?_concat
    obtain ⟨s, hlex⟩ := lexNumber_suffixed start hrun (hends.stops hget hlast.1) (hget ▸ hlast.2)
    obtain ⟨what, hsuffixed⟩ := lexSuffixed_binary start (byte suffix) s hne hdigits
    rw [hlex, hsuffixed]
    exact parseU64_converted start what 2 digits _

/-! ## Tokens -/

theorem Spelling.head {n : Nat} {text : Bytes} (h : Spelling n text) :
    ∃ c cs, text = c :: cs ∧ isAsciiDigit c := by
  cases h with
  | decimal hne hdigits =>
    obtain ⟨c, cs, rfl⟩ := List.exists_cons_of_ne_nil hne
    exact ⟨c, cs, rfl, List.all_eq_true.1 hdigits c List.mem_cons_self⟩
  | hex hc hdigits hsuffix => exact ⟨_, _, rfl, hc⟩
  | octal hne hdigits hsuffix =>
    obtain ⟨c, cs, rfl⟩ := List.exists_cons_of_ne_nil hne
    exact ⟨c, _, rfl, isAsciiDigit_of_isOctalDigit (List.all_eq_true.1 hdigits c List.mem_cons_self)⟩
  | binary hne hdigits hsuffix =>
    obtain ⟨c, cs, rfl⟩ := List.exists_cons_of_ne_nil hne
    exact ⟨c, _, rfl, isAsciiDigit_of_isOctalDigit
      (isOctalDigit_of_isBinaryDigit (List.all_eq_true.1 hdigits c List.mem_cons_self))⟩

/-- The position behind `text`. -/
def SourcePosition.behind (p : SourcePosition) (text : Bytes) : SourcePosition := text.foldl next p

theorem isAsciiDigit_ne {c d : UInt8} (hc : isAsciiDigit c) (hd : ¬ isAsciiDigit d) : c ≠ d :=
  fun h => hd (h ▸ hc)

theorem not_isIdentStart_of_isAsciiDigit {c : UInt8} (hc : isAsciiDigit c) : ¬ isIdentStart c := by
  simp only [isAsciiDigit, Bool.and_eq_true, decide_eq_true_eq] at hc
  simp only [isIdentStart, isAsciiAlphabetic, isAsciiUpper, isAsciiLower, Bool.or_eq_true,
    Bool.and_eq_true, decide_eq_true_eq]
  rintro ((h | h) | rfl)
  · exact absurd (UInt8.le_trans h.1 hc.2) (by decide)
  · exact absurd (UInt8.le_trans h.1 hc.2) (by decide)
  · exact absurd hc.2 (by decide)

theorem nextToken_digit {c : UInt8} (cs : Bytes) (pos : SourcePosition) (hc : isAsciiDigit c) :
    nextToken ⟨c :: cs, pos⟩ = (lexNumber pos (c :: cs)).map fun r =>
      (⟨r.1, ⟨pos, pos.behind ((c :: cs).take r.2)⟩⟩,
        ⟨(c :: cs).drop r.2, pos.behind ((c :: cs).take r.2)⟩) := by
  have hspace : ¬ isSpace c := by
    simp [isSpace, isAsciiDigit_ne hc (d := space) (by decide), isAsciiDigit_ne hc (d := 9) (by decide),
      isAsciiDigit_ne hc (d := 13) (by decide), isAsciiDigit_ne hc (d := newline) (by decide)]
  have hskip : skipTrivia 0 pos (c :: cs) = .ok ⟨c :: cs, pos⟩ := by
    rw [skipTrivia, if_neg hspace,
      if_neg fun h => isAsciiDigit_ne hc (d := lparen) (by decide) h.1,
      if_neg fun h => isAsciiDigit_ne hc (d := slash) (by decide) h.1]
  have hlex : lexToken pos c cs = lexNumber pos (c :: cs) := by
    rw [lexToken, if_neg fun h => isAsciiDigit_ne hc (d := less) (by decide) h.1,
      if_neg (not_isIdentStart_of_isAsciiDigit hc), if_pos hc]
  simp only [nextToken, hskip, hlex, bind, Except.bind]
  cases lexNumber pos (c :: cs) with
  | error e => rfl
  | ok r => rfl

theorem nextToken_numeral {n : Nat} {text rest : Bytes} (h : Spelling n text) (hends : Ends text rest)
    (pos : SourcePosition) :
    (n < 2 ^ 64 → nextToken ⟨text ++ rest, pos⟩ =
      .ok (⟨.integer n.toUInt64, ⟨pos, pos.behind text⟩⟩, ⟨rest, pos.behind text⟩)) ∧
    (2 ^ 64 ≤ n → ∃ message, nextToken ⟨text ++ rest, pos⟩ = .error (.error message pos)) := by
  obtain ⟨hsmall, hlarge⟩ := lexNumber_converted h hends pos
  obtain ⟨c, cs, htext, hc⟩ := h.head
  have hnext : nextToken ⟨text ++ rest, pos⟩ = (lexNumber pos (text ++ rest)).map fun r =>
      (⟨r.1, ⟨pos, pos.behind ((text ++ rest).take r.2)⟩⟩,
        ⟨(text ++ rest).drop r.2, pos.behind ((text ++ rest).take r.2)⟩) := by
    rw [htext, List.cons_append]
    exact nextToken_digit (cs ++ rest) pos hc
  rw [hnext]
  constructor
  · intro hn
    rw [hsmall hn, Except.map, List.take_left, List.drop_left]
  · intro hn
    obtain ⟨message, hmessage⟩ := hlarge hn
    exact ⟨message, by rw [hmessage, Except.map]⟩

theorem ends_dotDot (text rest : Bytes) : Ends text (ascii ".." ++ rest) := by
  refine .inr ⟨?_, ?_, fun _ => rfl⟩
  · exact fun c hc => Option.some.inj hc ▸ by decide
  · exact fun c hc => Option.some.inj hc ▸ by decide

theorem nextToken_dotDot (rest : Bytes) (pos : SourcePosition) :
    nextToken ⟨ascii ".." ++ rest, pos⟩ =
      .ok (⟨.dotDot, ⟨pos, pos.behind (ascii "..")⟩⟩, ⟨rest, pos.behind (ascii "..")⟩) := rfl

/-- Integer literals: a spelling that ends is one token, with its number, or too large; and behind a
range that begins with one, the end of the range. -/
theorem integer_literals {n m : Nat} {s t rest rest' : Bytes} (hn : Spelling n s) (hm : Spelling m t)
    (hrest : Ends s rest) (hrest' : Ends t rest') (pos : SourcePosition) :
    (n < 2 ^ 64 → nextToken ⟨s ++ rest, pos⟩ =
      .ok (⟨.integer n.toUInt64, ⟨pos, pos.behind s⟩⟩, ⟨rest, pos.behind s⟩)) ∧
    (2 ^ 64 ≤ n → ∃ message, nextToken ⟨s ++ rest, pos⟩ = .error (.error message pos)) ∧
    (n < 2 ^ 64 → m < 2 ^ 64 → ∃ p₁ p₂ p₃ : SourcePosition,
      nextToken ⟨s ++ (ascii ".." ++ (t ++ rest')), pos⟩ =
        .ok (⟨.integer n.toUInt64, ⟨pos, p₁⟩⟩, ⟨ascii ".." ++ (t ++ rest'), p₁⟩) ∧
      nextToken ⟨ascii ".." ++ (t ++ rest'), p₁⟩ = .ok (⟨.dotDot, ⟨p₁, p₂⟩⟩, ⟨t ++ rest', p₂⟩) ∧
      nextToken ⟨t ++ rest', p₂⟩ = .ok (⟨.integer m.toUInt64, ⟨p₂, p₃⟩⟩, ⟨rest', p₃⟩)) := by
  obtain ⟨hsmall, hlarge⟩ := nextToken_numeral hn hrest pos
  refine ⟨hsmall, hlarge, fun hn' hm' => ?_⟩
  have hfirst := (nextToken_numeral hn (ends_dotDot s (t ++ rest')) pos).1 hn'
  have hsecond := nextToken_dotDot (t ++ rest') (pos.behind s)
  have hthird := (nextToken_numeral hm hrest' ((pos.behind s).behind (ascii ".."))).1 hm'
  exact ⟨_, _, _, hfirst, hsecond, hthird⟩

theorem spelling_octal : Spelling 15 (ascii "17B") :=
  have h : Spelling (value 8 (ascii "17")) (ascii "17" ++ [byte 'B']) :=
    .octal (by decide) (by decide) (.inl rfl)
  h

theorem spelling_hex : Spelling 255 (ascii "0ffH") :=
  have h : Spelling (value 16 (byte '0' :: ascii "ff")) (byte '0' :: ascii "ff" ++ [byte 'H']) :=
    .hex (by decide) (by decide) (.inl rfl)
  h

theorem integer_literals_octal_hex :
    nextToken ⟨ascii "17B;", .start⟩ = .ok (⟨.integer 15, ⟨.start, ⟨1, 4, 3⟩⟩⟩, ⟨ascii ";", ⟨1, 4, 3⟩⟩) ∧
      ∃ p₁ p₂ p₃ : SourcePosition,
        nextToken ⟨ascii "17B..0ffHX", .start⟩ =
          .ok (⟨.integer 15, ⟨.start, p₁⟩⟩, ⟨ascii "..0ffHX", p₁⟩) ∧
        nextToken ⟨ascii "..0ffHX", p₁⟩ = .ok (⟨.dotDot, ⟨p₁, p₂⟩⟩, ⟨ascii "0ffHX", p₂⟩) ∧
        nextToken ⟨ascii "0ffHX", p₂⟩ = .ok (⟨.integer 255, ⟨p₂, p₃⟩⟩, ⟨ascii "X", p₃⟩) := by
  have hends : Ends (ascii "17B") (ascii ";") := by
    refine .inr ⟨?_, ?_, fun h => absurd h (by decide)⟩
    · exact fun c hc => Option.some.inj hc ▸ by decide
    · exact fun c hc => Option.some.inj hc ▸ by decide
  have hends' : Ends (ascii "0ffH") (ascii "X") := .inl (by decide)
  have h := integer_literals spelling_octal spelling_hex hends hends' .start
  exact ⟨h.1 (by decide), h.2.2 (by decide) (by decide)⟩

/-- A numeral has digits and suffixes only. -/
theorem Spelling.mem {n : Nat} {text : Bytes} (h : Spelling n text) :
    ∀ c ∈ text, isHexDigit c ∨ isHexSuffix c := by
  have hall {p : UInt8 → Bool} {digits : Bytes} (hdigits : digits.all p) (hp : ∀ c, p c → isHexDigit c) :
      ∀ c ∈ digits, isHexDigit c ∨ isHexSuffix c :=
    fun c hc => .inl (hp c (List.all_eq_true.1 hdigits c hc))
  have hoctal (c : UInt8) (h : isOctalDigit c) : isHexDigit c :=
    isHexDigit_of_isAsciiDigit (isAsciiDigit_of_isOctalDigit h)
  cases h with
  | decimal hne hdigits => exact hall hdigits fun _ => isHexDigit_of_isAsciiDigit
  | hex hc hdigits hsuffix =>
    refine List.forall_mem_append.2 ⟨List.forall_mem_cons.2 ⟨.inl (isHexDigit_of_isAsciiDigit hc), ?_⟩, ?_⟩
    · exact hall hdigits fun _ h => h
    · refine List.forall_mem_singleton.2 (.inr ?_)
      rcases hsuffix with rfl | rfl <;> decide
  | octal hne hdigits hsuffix =>
    refine List.forall_mem_append.2 ⟨hall hdigits hoctal, List.forall_mem_singleton.2 (.inl ?_)⟩
    rcases hsuffix with rfl | rfl <;> decide
  | binary hne hdigits hsuffix =>
    refine List.forall_mem_append.2
      ⟨hall hdigits fun c h => hoctal c (isOctalDigit_of_isBinaryDigit h),
        List.forall_mem_singleton.2 (.inl ?_)⟩
    rcases hsuffix with rfl | rfl <;> decide

/-- A point behind an octal numeral does not continue it, and yet is not read as the next token. -/
theorem octal_point_refused :
    Spelling 15 (ascii "17B") ∧ (∀ n more, ¬ Spelling n (ascii "17B." ++ more)) ∧
      tokenize (ascii "17B.") = .error (.error "real literal integer part must be decimal" .start) := by
  refine ⟨spelling_octal, fun n more h => ?_, by decide +kernel⟩
  have hpoint : byte '.' ∈ ascii "17B." ++ more := List.mem_append_left _ (by decide)
  exact absurd (h.mem _ hpoint) (by decide)

end NewM2.Lexer
