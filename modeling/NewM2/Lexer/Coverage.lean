import Mathlib
import NewM2.Lexer.Tokenize

/-!
# What the tokens of a text cover

The tokens stand in the text one behind the other, with space and comments between them. `TokenText`
lists the texts that a scanner takes (`lexToken_scanned`): each begins and ends with an ASCII byte, so a
token begins and ends between characters. The cursor counts lines and columns over every byte it passes
(`foldl_next`). `Covered` is what the loop of `tokenize` keeps, from the bytes that were read to those
still to come. A pragma is a token here, so there is none between tokens.
-/

namespace NewM2.Lexer
open Utf8

/-! ## Lines and columns -/

/-- Behind `before`: how many lines, and how far in the last one. -/
def positionBehind (before : Bytes) : SourcePosition :=
  ⟨before.count newline + 1, (before.reverse.takeWhile (· != newline)).length + 1, before.length⟩

/-- The position of an offset. -/
def position (src : Bytes) (offset : Nat) : SourcePosition := positionBehind (src.take offset)

theorem positionBehind_nil : positionBehind [] = .start := rfl

theorem next_positionBehind (before : Bytes) (c : UInt8) :
    (positionBehind before).next c = positionBehind (before ++ [c]) := by
  unfold SourcePosition.next positionBehind
  by_cases hc : c = newline
  · subst hc
    simp
  · simp [hc]

theorem foldl_next (before bs : Bytes) :
    bs.foldl SourcePosition.next (positionBehind before) = positionBehind (before ++ bs) := by
  induction bs generalizing before with
  | nil => rw [List.append_nil, List.foldl_nil]
  | cons c cs ih =>
    rw [List.foldl_cons, next_positionBehind, ih, List.append_assoc, List.singleton_append]

theorem position_append (before bs : Bytes) :
    position (before ++ bs) before.length = positionBehind before := by
  rw [position, List.take_left]

/-! ## Space and comments -/

/-- The bytes of a comment from a place nested `depth` deep to its end. -/
inductive InComment : Nat → Bytes → Prop
  | close : InComment 1 [star, rparen]
  | outer {depth : Nat} {body : Bytes} (hdepth : 0 < depth) :
      InComment depth body → InComment (depth + 1) (star :: rparen :: body)
  | inner {depth : Nat} {body : Bytes} :
      InComment (depth + 1) body → InComment depth (lparen :: star :: body)
  | byte {depth : Nat} {c : UInt8} {body : Bytes} (hopen : ¬ (c = lparen ∧ body.head? = some star))
      (hclose : ¬ (c = star ∧ body.head? = some rparen)) :
      InComment depth body → InComment depth (c :: body)

/-- Space and comments, before `rest`. -/
inductive Trivia (rest : Bytes) : Bytes → Prop
  | nil : Trivia rest []
  | space {c : UInt8} {gap : Bytes} (hc : isSpace c) : Trivia rest gap → Trivia rest (c :: gap)
  | comment {body gap : Bytes} (hbody : InComment 1 body) :
      Trivia rest gap → Trivia rest (lparen :: star :: (body ++ gap))
  | line {text gap : Bytes} (htext : newline ∉ text)
      (hend : gap ++ rest = [] ∨ (gap ++ rest).head? = some newline) :
      Trivia rest gap → Trivia rest (slash :: slash :: (text ++ gap))

theorem InComment.head? {depth : Nat} {body : Bytes} (h : InComment depth body) (rest : Bytes) :
    (body ++ rest).head? = body.head? := by
  cases h <;> rfl

theorem skipBlockComment_inComment {depth skip : Nat} {src rest : Bytes} (hdepth : 0 < depth)
    (h : skipBlockComment depth skip src = some rest) :
    ∃ body, src.drop skip = body ++ rest ∧ InComment depth body := by
  induction depth, skip, src using skipBlockComment.induct with
  | case1 => simp [skipBlockComment] at h
  | case2 depth skip c cs ih =>
    rw [skipBlockComment] at h
    exact ih hdepth h
  | case3 depth c cs hopen ih =>
    rw [skipBlockComment, if_pos hopen] at h
    obtain ⟨rfl, hhead⟩ := hopen
    obtain ⟨body, hbody, hin⟩ := ih (Nat.succ_pos _) h
    rcases cs with - | ⟨d, cs⟩
    · cases hhead
    · cases hhead
      exact ⟨lparen :: star :: body, by simpa using hbody, .inner hin⟩
  | case4 depth c cs hopen hgreater ih =>
    rw [skipBlockComment, if_neg hopen, if_pos hgreater] at h
    obtain ⟨body, rfl, hin⟩ := ih hdepth h
    rw [hin.head? rest] at hopen hgreater
    refine ⟨c :: body, rfl, .byte hopen ?_ hin⟩
    rintro ⟨-, hclose⟩
    exact absurd (hgreater.2.symm.trans hclose) (by decide)
  | case5 c cs hopen hgreater hclose =>
    rw [skipBlockComment, if_neg hopen, if_neg hgreater, if_pos hclose, if_pos rfl] at h
    obtain ⟨rfl, hhead⟩ := hclose
    rcases cs with - | ⟨d, cs⟩
    · cases hhead
    · cases hhead
      cases h
      exact ⟨[star, rparen], rfl, .close⟩
  | case6 depth c cs hopen hgreater hclose hone ih =>
    rw [skipBlockComment, if_neg hopen, if_neg hgreater, if_pos hclose, if_neg hone] at h
    obtain ⟨rfl, hhead⟩ := hclose
    obtain ⟨body, hbody, hin⟩ := ih (by omega) h
    rcases cs with - | ⟨d, cs⟩
    · cases hhead
    · cases hhead
      obtain ⟨n, rfl⟩ : ∃ n, depth = n + 1 := ⟨depth - 1, by omega⟩
      exact ⟨star :: rparen :: body, by simpa using hbody, .outer (by omega) hin⟩
  | case7 depth c cs hopen hgreater hclose ih =>
    rw [skipBlockComment, if_neg hopen, if_neg hgreater, if_neg hclose] at h
    obtain ⟨body, rfl, hin⟩ := ih hdepth h
    rw [hin.head? rest] at hopen hclose
    exact ⟨c :: body, rfl, .byte hopen hclose hin⟩

/-- The rest of a line, and what is behind it. -/
theorem takeWhile_line (cs : Bytes) :
    ∃ text rest, cs = text ++ rest ∧ cs.takeWhile (· != newline) = text ∧ newline ∉ text ∧
      (rest = [] ∨ rest.head? = some newline) := by
  refine ⟨_, cs.dropWhile (· != newline), List.takeWhile_append_dropWhile.symm, rfl, ?_, ?_⟩
  · intro h
    have hp := List.mem_takeWhile_imp h
    simp at hp
  · rcases hd : cs.dropWhile (· != newline) with - | ⟨d, ds⟩
    · exact .inl rfl
    · have hp := List.head_dropWhile_not (· != newline) (l := cs) (by simp [hd])
      simp only [hd, List.head_cons, bne_eq_false_iff_eq] at hp
      exact .inr (congrArg some hp)

/-- What `skipTrivia` does from `pos`, where the next `skip` bytes were dealt with. -/
def Skipped (skip : Nat) (pos : SourcePosition) (src : Bytes) : Except Failure Cursor → Prop
  | .ok c => (∃ gap, src.drop skip = gap ++ c.rest ∧
      c.pos = (src.take skip ++ gap).foldl SourcePosition.next pos ∧ Trivia c.rest gap) ∧
      ¬ (c.rest.head? = some lparen ∧ c.rest.tail.head? = some star) ∧
      ¬ (c.rest.head? = some slash ∧ c.rest.tail.head? = some slash)
  | .error e => ∃ message at_, e = .error message at_

theorem skipTrivia_skipped {skip : Nat} (pos : SourcePosition) {src : Bytes} (hskip : skip ≤ src.length) :
    Skipped skip pos src (skipTrivia skip pos src) := by
  induction skip, pos, src using skipTrivia.induct with
  | case1 skip pos =>
    obtain rfl : skip = 0 := Nat.le_zero.1 hskip
    exact ⟨⟨[], rfl, rfl, .nil⟩, by simp, by simp⟩
  | case2 skip pos c cs ih =>
    rw [skipTrivia]
    have hs := ih (Nat.le_of_succ_le_succ hskip)
    generalize skipTrivia skip (pos.next c) cs = r at hs
    cases r with
    | error e => exact hs
    | ok r => exact hs
  | case3 pos c cs hc ih =>
    rw [skipTrivia, if_pos hc]
    have hs := ih (Nat.zero_le _)
    generalize skipTrivia 0 (pos.next c) cs = r at hs
    cases r with
    | error e => exact hs
    | ok r =>
      obtain ⟨⟨gap, hsrc, hpos, hgap⟩, hend⟩ := hs
      exact ⟨⟨c :: gap, congrArg (c :: ·) hsrc, hpos, .space hc hgap⟩, hend⟩
  | case4 pos c cs hc hopen hskip' =>
    rw [skipTrivia, if_neg hc, if_pos hopen, hskip']
    exact ⟨_, _, rfl⟩
  | case5 pos c cs hc hopen rest hskip' ih =>
    rw [skipTrivia, if_neg hc, if_pos hopen, hskip']
    obtain ⟨rfl, hhead⟩ := hopen
    rcases cs with - | ⟨d, cs⟩
    · cases hhead
    cases hhead
    obtain ⟨body, rfl, hbody⟩ := skipBlockComment_inComment Nat.one_pos hskip'
    have hlen : (star :: (body ++ rest)).length - rest.length = (star :: body).length := by
      simp only [List.length_cons, List.length_append]
      omega
    have hs := ih (by rw [hlen]; simp)
    simp only at hs ⊢
    rw [hlen] at hs ⊢
    generalize skipTrivia (star :: body).length _ _ = r at hs
    cases r with
    | error e => exact hs
    | ok r =>
      obtain ⟨⟨gap, hsrc, hpos, hgap⟩, hend⟩ := hs
      refine ⟨⟨lparen :: star :: (body ++ gap), ?_, ?_, .comment hbody hgap⟩, hend⟩
      · simp at hsrc ⊢
        exact hsrc
      · simpa using hpos
  | case6 pos c cs hc hopen hline ih =>
    rw [skipTrivia, if_neg hc, if_neg hopen, if_pos hline]
    obtain ⟨rfl, hhead⟩ := hline
    rcases cs with - | ⟨d, cs⟩
    · cases hhead
    cases hhead
    obtain ⟨text, rest, rfl, htext, hnl, hrest⟩ := takeWhile_line cs
    have hlen : ((slash :: (text ++ rest)).takeWhile (· != newline)).length = (slash :: text).length := by
      rw [List.takeWhile_cons_of_pos (by decide), htext]
    have hs := ih (List.takeWhile_prefix _).length_le
    rw [hlen] at hs ⊢
    generalize skipTrivia _ (pos.next slash) _ = r at hs
    cases r with
    | error e => exact hs
    | ok r =>
      obtain ⟨⟨gap, hsrc, hpos, hgap⟩, hend⟩ := hs
      have hrest' : rest = gap ++ r.rest := by simpa using hsrc
      refine ⟨⟨slash :: slash :: (text ++ gap), ?_, ?_, .line hnl (hrest' ▸ hrest) hgap⟩, hend⟩
      · simp [hrest']
      · simpa using hpos
  | case7 pos c cs hc hopen hline =>
    rw [skipTrivia, if_neg hc, if_neg hopen, if_neg hline]
    refine ⟨⟨[], rfl, rfl, .nil⟩, ?_, ?_⟩
    · rwa [List.head?_cons, List.tail_cons, Option.some_inj]
    · rwa [List.head?_cons, List.tail_cons, Option.some_inj]

/-! ## The scanners -/

/-- A byte at which no comment, string, pragma or directive begins. -/
def isPlain (c : UInt8) : Bool :=
  c < 128 && !(c = lparen || c = slash || c = less || c = percent || c = quote || c = doubleQuote)

/-- No comment, pragma, directive or string begins with `c` before `next`. -/
structure Alone (c : UInt8) (next : Option UInt8) : Prop where
  comment : ¬ (c = lparen ∧ next = some star)
  line : ¬ (c = slash ∧ next = some slash)
  pragma : ¬ (c = less ∧ next = some star)
  directive : c ≠ percent
  string : ¬ (c = doubleQuote ∨ c = quote)

/-- The text of a token before `rest`. -/
inductive TokenText (rest : Bytes) : Bytes → Prop
  | pragma {body : Bytes} (hbody : pragmaBody (body ++ star :: greater :: rest) = some body) :
      TokenText rest (less :: star :: (body ++ [star, greater]))
  | string {delimiter : UInt8} {body suffix : Bytes} (hd : delimiter = doubleQuote ∨ delimiter = quote)
      (hbody : stringBody delimiter (body ++ delimiter :: (suffix ++ rest)) = some body)
      (hsuffix : ∀ c ∈ suffix, isPlain c) : TokenText rest (delimiter :: (body ++ delimiter :: suffix))
  | other {c : UInt8} {more : Bytes} (hc : c < 128) (halone : Alone c (more ++ rest).head?)
      (hmore : ∀ x ∈ more, isPlain x) : TokenText rest (c :: more)

theorem isPlain_of_isWordByte : ∀ c : UInt8, isWordByte c → isPlain c := by decide +kernel

theorem isPlain_of_isHexDigit : ∀ c : UInt8, isHexDigit c → isPlain c := by decide +kernel

theorem isPlain_of_isAsciiDigit (c : UInt8) (h : isAsciiDigit c) : isPlain c :=
  isPlain_of_isHexDigit c (by simp [isHexDigit, h])

theorem isPlain_ascii {c : UInt8} (h : isPlain c) : c < 128 := by
  simp only [isPlain, Bool.and_eq_true, decide_eq_true_eq] at h
  exact h.1

theorem isWordByte_ascii {c : UInt8} (h : isWordByte c) : c < 128 := isPlain_ascii (isPlain_of_isWordByte c h)

theorem isHexDigit_ascii {c : UInt8} (h : isHexDigit c) : c < 128 := isPlain_ascii (isPlain_of_isHexDigit c h)

theorem isPlain_ne {c d : UInt8} (hc : isPlain c) (hd : ¬ isPlain d) : c ≠ d := fun h => hd (h ▸ hc)

theorem Alone.of_isPlain {c : UInt8} (hc : isPlain c) (next : Option UInt8) : Alone c next where
  comment h := isPlain_ne hc (by decide) h.1
  line h := isPlain_ne hc (by decide) h.1
  pragma h := isPlain_ne hc (by decide) h.1
  directive := isPlain_ne hc (by decide)
  string := by
    rintro (h | h)
    · exact isPlain_ne hc (by decide) h
    · exact isPlain_ne hc (by decide) h

namespace TokenText
variable {rest text : Bytes}

theorem plain (hne : text ≠ []) (h : ∀ x ∈ text, isPlain x) : TokenText rest text := by
  obtain ⟨c, more, rfl⟩ := List.exists_cons_of_ne_nil hne
  obtain ⟨hc, hmore⟩ := List.forall_mem_cons.1 h
  exact .other (isPlain_ascii hc) (.of_isPlain hc _) hmore

theorem ne_nil (h : TokenText rest text) : text ≠ [] := by
  cases h <;> exact List.cons_ne_nil _ _

/-- The first byte is ASCII. -/
theorem first (h : TokenText rest text) : ∃ x tail, text = x :: tail ∧ x < 128 := by
  cases h with
  | pragma hbody => exact ⟨_, _, rfl, by decide⟩
  | string hd hbody hsuffix => exact ⟨_, _, rfl, by rcases hd with rfl | rfl <;> decide⟩
  | other hc halone hmore => exact ⟨_, _, rfl, hc⟩

/-- The last byte is ASCII. -/
theorem last (h : TokenText rest text) : ∃ init x, text = init ++ [x] ∧ x < 128 := by
  cases h with
  | @pragma body hbody => exact ⟨less :: star :: (body ++ [star]), greater, by simp, by decide⟩
  | @string delimiter body suffix hd hbody hsuffix =>
    rcases List.eq_nil_or_concat' suffix with rfl | ⟨init, x, rfl⟩
    · exact ⟨delimiter :: body, delimiter, rfl, by rcases hd with rfl | rfl <;> decide⟩
    · exact ⟨delimiter :: (body ++ delimiter :: init), x, by simp, isPlain_ascii (hsuffix x (by simp))⟩
  | @other c more hc halone hmore =>
    rcases List.eq_nil_or_concat' more with rfl | ⟨init, x, rfl⟩
    · exact ⟨[], c, rfl, hc⟩
    · exact ⟨c :: init, x, rfl, isPlain_ascii (hmore x (by simp))⟩

end TokenText

/-- A token of the first `n` bytes of `src`, or a complaint. -/
def Scanned (src : Bytes) : Except Failure (TokenKind × Nat) → Prop
  | .ok (kind, n) => kind ≠ .eof ∧ ∃ text rest, src = text ++ rest ∧ text.length = n ∧ TokenText rest text
  | .error e => ∃ message at_, e = .error message at_

theorem takeWhile_ascii {p : UInt8 → Bool} (hp : ∀ c, p c → c < 128) (src : Bytes) :
    ∀ x ∈ src.takeWhile p, x < 128 :=
  fun _ hx => hp _ (List.mem_takeWhile_imp hx)

theorem unwrapText_ascii {b : Bytes} (h : ∀ x ∈ b, x < 128) : ∃ s, unwrapText b = .ok s := by
  obtain ⟨s, hs⟩ := Option.isSome_iff_exists.1 (decode_isSome.2 (valid_of_ascii h))
  exact ⟨s, by rw [unwrapText, hs]⟩

theorem pragmaBody_eq {src body : Bytes} (h : pragmaBody src = some body) :
    ∃ rest, src = body ++ star :: greater :: rest := by
  induction src generalizing body with
  | nil => cases h
  | cons c cs ih =>
    rw [pragmaBody] at h
    split_ifs at h with hend
    · obtain ⟨rfl, hhead⟩ := hend
      cases h
      rcases cs with - | ⟨d, cs⟩
      · cases hhead
      · cases hhead
        exact ⟨cs, rfl⟩
    · obtain ⟨body', hbody, rfl⟩ := Option.map_eq_some_iff.1 h
      obtain ⟨rest, rfl⟩ := ih hbody
      exact ⟨rest, rfl⟩

theorem lexPragma_scanned (start : SourcePosition) (cs : Bytes) :
    Scanned (less :: star :: cs) (lexPragma start cs) := by
  unfold lexPragma
  rcases hbody : pragmaBody cs with - | body
  · exact ⟨_, _, rfl⟩
  · obtain ⟨rest, rfl⟩ := pragmaBody_eq hbody
    refine ⟨TokenKind.noConfusion, _, rest, ?_, ?_, .pragma hbody⟩
    · simp
    · simp

theorem lexIdent_scanned {c : UInt8} (cs : Bytes) (hc : isIdentStart c) :
    Scanned (c :: cs) (lexIdent (c :: cs)) := by
  have hword : isWordByte c := by
    rcases Bool.or_eq_true _ _ ▸ hc with h | h <;> simp [isWordByte, h]
  have hne : (c :: cs).takeWhile isWordByte ≠ [] := by
    rw [List.takeWhile_cons_of_pos hword]
    exact List.cons_ne_nil _ _
  obtain ⟨s, hs⟩ := unwrapText_ascii (takeWhile_ascii (fun _ => isWordByte_ascii) (c :: cs))
  have htext : TokenText ((c :: cs).dropWhile isWordByte) ((c :: cs).takeWhile isWordByte) :=
    .plain hne fun x hx => isPlain_of_isWordByte x (List.mem_takeWhile_imp hx)
  have hsplit : c :: cs = (c :: cs).takeWhile isWordByte ++ (c :: cs).dropWhile isWordByte :=
    List.takeWhile_append_dropWhile.symm
  simp only [lexIdent, hs, bind, Except.bind]
  rcases Keyword.fromStr s with - | k
  · exact ⟨TokenKind.noConfusion, _, _, hsplit, rfl, htext⟩
  · exact ⟨TokenKind.noConfusion, _, _, hsplit, rfl, htext⟩

theorem stringBody_eq {delimiter : UInt8} {src body : Bytes} (h : stringBody delimiter src = some body) :
    ∃ rest, src = body ++ delimiter :: rest := by
  induction src generalizing body with
  | nil => cases h
  | cons c cs ih =>
    rw [stringBody] at h
    split_ifs at h with hnl hend
    · subst hend
      cases h
      exact ⟨cs, rfl⟩
    · obtain ⟨body', hbody, rfl⟩ := Option.map_eq_some_iff.1 h
      obtain ⟨rest, rfl⟩ := ih hbody
      exact ⟨rest, rfl⟩

/-- A suffix is an ASCII letter. -/
theorem literalFlavor_eq (src : Bytes) :
    ∃ suffix rest, src = suffix ++ rest ∧ suffix.length = (literalFlavor src).2 ∧ ∀ c ∈ suffix, isPlain c := by
  rcases src with - | ⟨c, rest⟩
  · exact ⟨[], [], rfl, rfl, by simp⟩
  · simp only [literalFlavor]
    split_ifs with hu ha
    · refine ⟨[c], rest, rfl, rfl, List.forall_mem_singleton.2 ?_⟩
      rcases hu with rfl | rfl <;> decide
    · refine ⟨[c], rest, rfl, rfl, List.forall_mem_singleton.2 ?_⟩
      rcases ha with rfl | rfl <;> decide
    · exact ⟨[], c :: rest, rfl, rfl, by simp⟩

theorem lexString_scanned (start : SourcePosition) {delimiter : UInt8}
    (hd : delimiter = doubleQuote ∨ delimiter = quote) (cs : Bytes) :
    Scanned (delimiter :: cs) (lexString start delimiter cs) := by
  unfold lexString
  rcases hbody : stringBody delimiter cs with - | body
  · exact ⟨_, _, rfl⟩
  obtain ⟨rest, rfl⟩ := stringBody_eq hbody
  have hdrop : (body ++ delimiter :: rest).drop (body.length + 1) = rest := by simp
  simp only [hdrop]
  obtain ⟨suffix, rest', rfl, hlen, hsuffix⟩ := literalFlavor_eq rest
  have htext : ∃ text rest, delimiter :: (body ++ delimiter :: (suffix ++ rest')) = text ++ rest ∧
      text.length = body.length + 2 + (literalFlavor (suffix ++ rest')).2 ∧ TokenText rest text := by
    refine ⟨_, rest', ?_, ?_, .string hd hbody hsuffix⟩
    · simp
    · rw [← hlen, List.length_cons, List.length_append, List.length_cons]
      omega
  split
  · exact ⟨TokenKind.noConfusion, htext⟩
  · exact ⟨TokenKind.noConfusion, htext⟩

/-! ### Numbers -/

theorem parseU64_scanned (start : SourcePosition) (what : String) (radix : Nat) (digits : Bytes)
    {src text rest : Bytes} (hsrc : src = text ++ rest) (htext : TokenText rest text) :
    Scanned src (parseU64 start what radix digits text.length) := by
  unfold parseU64
  rcases fromStrRadix (2 ^ 64) radix digits with - | value
  · exact ⟨_, _, rfl⟩
  · exact ⟨TokenKind.noConfusion, text, rest, hsrc, rfl, htext⟩

theorem drop_takeWhile (p : UInt8 → Bool) (src : Bytes) :
    src.drop (src.takeWhile p).length = src.dropWhile p := by
  conv_lhs => arg 2; rw [← List.takeWhile_append_dropWhile (p := p) (l := src)]
  exact List.drop_left

/-- A scale factor has letters, digits and signs. -/
theorem scaleFactor_eq (src : Bytes) :
    ∃ text rest, src = text ++ rest ∧ text.length = (scaleFactor src).1 ∧ ∀ x ∈ text, isPlain x := by
  rcases src with - | ⟨c, cs⟩
  · exact ⟨[], [], rfl, rfl, by simp⟩
  simp only [scaleFactor]
  have hdigits (bs : Bytes) : bs = bs.takeWhile isAsciiDigit ++ bs.dropWhile isAsciiDigit :=
    List.takeWhile_append_dropWhile.symm
  have hplain (bs : Bytes) : ∀ x ∈ bs.takeWhile isAsciiDigit, isPlain x :=
    fun x hx => isPlain_of_isAsciiDigit x (List.mem_takeWhile_imp hx)
  by_cases hc : c = byte 'E' ∨ c = byte 'e'
  · have hc' : isPlain c := by rcases hc with rfl | rfl <;> decide
    rw [if_pos hc]
    by_cases hs : cs.head? = some (byte '+') ∨ cs.head? = some (byte '-')
    · rw [if_pos hs]
      rcases cs with - | ⟨s, cs⟩
      · simp at hs
      have hs' : isPlain s := by
        rcases hs with h | h
        · rw [Option.some.inj h]; decide
        · rw [Option.some.inj h]; decide
      refine ⟨c :: s :: cs.takeWhile isAsciiDigit, cs.dropWhile isAsciiDigit, ?_, ?_, ?_⟩
      · exact congrArg (c :: s :: ·) (hdigits cs)
      · simp only [List.length_cons, List.drop_succ_cons, List.drop_zero]
        omega
      · exact List.forall_mem_cons.2 ⟨hc', List.forall_mem_cons.2 ⟨hs', hplain cs⟩⟩
    · rw [if_neg hs]
      refine ⟨c :: cs.takeWhile isAsciiDigit, cs.dropWhile isAsciiDigit, ?_, ?_, ?_⟩
      · exact congrArg (c :: ·) (hdigits cs)
      · simp only [List.length_cons, List.drop_zero]
        omega
      · exact List.forall_mem_cons.2 ⟨hc', hplain cs⟩
  · rw [if_neg hc]
    exact ⟨[], _, rfl, rfl, by simp⟩

theorem lexReal_scanned (start : SourcePosition) (run frac : Bytes) :
    Scanned (run ++ byte '.' :: frac) (lexReal start (run ++ byte '.' :: frac) run frac) := by
  unfold lexReal
  by_cases hrun : run.all isAsciiDigit
  · rw [hrun, Bool.not_true, if_neg Bool.false_ne_true]
    have hfrac : frac = frac.takeWhile isAsciiDigit ++ frac.dropWhile isAsciiDigit :=
      List.takeWhile_append_dropWhile.symm
    have hdigits : ∀ x ∈ frac.takeWhile isAsciiDigit, isPlain x :=
      fun x hx => isPlain_of_isAsciiDigit x (List.mem_takeWhile_imp hx)
    obtain ⟨scale, rest, hrest, hlen, hscale⟩ := scaleFactor_eq (frac.dropWhile isAsciiDigit)
    simp only [drop_takeWhile]
    generalize frac.dropWhile isAsciiDigit = more at *
    generalize frac.takeWhile isAsciiDigit = digits at *
    subst hfrac hrest
    have hsrc : run ++ byte '.' :: (digits ++ (scale ++ rest)) =
        (run ++ byte '.' :: (digits ++ scale)) ++ rest := by simp
    have hn : run.length + 1 + digits.length + (scaleFactor (scale ++ rest)).1 =
        (run ++ byte '.' :: (digits ++ scale)).length := by
      simp only [List.length_append, List.length_cons]
      omega
    have hplain : ∀ x ∈ run ++ byte '.' :: (digits ++ scale), isPlain x := by
      refine List.forall_mem_append.2 ⟨fun x hx => ?_, List.forall_mem_cons.2 ⟨by decide, ?_⟩⟩
      · exact isPlain_of_isAsciiDigit x (List.all_eq_true.1 hrun x hx)
      · exact List.forall_mem_append.2 ⟨hdigits, hscale⟩
    obtain ⟨s, hs⟩ := unwrapText_ascii fun x hx => isPlain_ascii (hplain x hx)
    rw [hsrc, hn, List.take_left]
    simp only [hs, bind, Except.bind]
    split_ifs
    · exact ⟨TokenKind.noConfusion, _, rest, rfl, rfl,
        .plain (List.append_ne_nil_of_right_ne_nil _ (List.cons_ne_nil _ _)) hplain⟩
    · exact ⟨_, _, rfl⟩
  · rw [Bool.not_eq_true] at hrun
    rw [hrun]
    exact ⟨_, _, rfl⟩

theorem lexSuffixed_scanned (start : SourcePosition) {src run rest : Bytes} (text : String) (kind : Char)
    (hsrc : src = run ++ rest) (hrun : TokenText rest run) : Scanned src (lexSuffixed start run text kind) := by
  have hcomplaint (message : String) : Scanned src (.error (.error message start)) := ⟨_, _, rfl⟩
  simp only [lexSuffixed]
  generalize (if kind = 'B' then "octal" else "char") = name
  split_ifs
  · exact hcomplaint _
  · exact hcomplaint _
  · exact parseU64_scanned _ _ _ _ hsrc hrun
  · exact hcomplaint _
  · exact hcomplaint _
  · exact parseU64_scanned _ _ _ _ hsrc hrun
  · rcases fromStrRadix (2 ^ 32) 8 run.dropLast with - | code
    · exact hcomplaint _
    · simp only
      split_ifs
      · exact ⟨TokenKind.noConfusion, run, rest, hsrc, rfl, hrun⟩
      · exact hcomplaint _

theorem lexNumber_scanned (start : SourcePosition) {c : UInt8} (cs : Bytes) (hc : isAsciiDigit c) :
    Scanned (c :: cs) (lexNumber start (c :: cs)) := by
  set src := c :: cs with hsrc
  have hplain : ∀ x ∈ src.takeWhile isHexDigit, isPlain x :=
    fun x hx => isPlain_of_isHexDigit x (List.mem_takeWhile_imp hx)
  obtain ⟨text, htext⟩ := unwrapText_ascii fun x hx => isPlain_ascii (hplain x hx)
  have hsplit : src = src.takeWhile isHexDigit ++ src.dropWhile isHexDigit :=
    List.takeWhile_append_dropWhile.symm
  have hne : src.takeWhile isHexDigit ≠ [] := by
    rw [hsrc, List.takeWhile_cons_of_pos (by simp [isHexDigit, hc])]
    exact List.cons_ne_nil _ _
  simp only [lexNumber, htext, bind, Except.bind, drop_takeWhile]
  generalize src.takeWhile isHexDigit = run at *
  generalize src.dropWhile isHexDigit = after at *
  have hrun : TokenText after run := .plain hne hplain
  by_cases hhex : after.head? = some (byte 'H') ∨ after.head? = some (byte 'h')
  · rw [if_pos hhex]
    rcases after with - | ⟨d, after⟩
    · simp at hhex
    · have hd : isPlain d := by
        rcases hhex with h | h
        · rw [Option.some.inj h]; decide
        · rw [Option.some.inj h]; decide
      have hlen : run.length + 1 = (run ++ [d]).length := by simp
      have hsplit' : src = (run ++ [d]) ++ after := by simpa using hsplit
      rw [hlen]
      refine parseU64_scanned start _ 16 run hsplit' ?_
      refine .plain (List.append_ne_nil_of_right_ne_nil _ (List.cons_ne_nil _ _)) ?_
      exact List.forall_mem_append.2 ⟨hplain, List.forall_mem_singleton.2 hd⟩
  rw [if_neg hhex]
  by_cases hreal : after.head? = some (byte '.') ∧ after.tail.head? ≠ some (byte '.')
  · rw [if_pos hreal]
    rcases after with - | ⟨d, after⟩
    · simp at hreal
    · obtain rfl : d = byte '.' := Option.some.inj hreal.1
      rw [hsplit]
      exact lexReal_scanned start run after
  · rw [if_neg hreal]
    rcases suffixKind run.getLast? with - | kind
    · simp only
      split_ifs
      · exact parseU64_scanned start _ 10 run hsplit hrun
      · exact ⟨_, _, rfl⟩
    · exact lexSuffixed_scanned start text kind hsplit hrun

/-! ### Operators, and all of them -/

theorem scanned_one {c : UInt8} {cs : Bytes} {kind : TokenKind} (hkind : kind ≠ .eof) (hc : c < 128)
    (halone : Alone c cs.head?) : Scanned (c :: cs) (.ok (kind, 1)) :=
  ⟨hkind, [c], cs, rfl, rfl, .other hc halone (by simp)⟩

theorem scanned_two {c d : UInt8} {cs : Bytes} {kind : TokenKind} (hkind : kind ≠ .eof) (hc : c < 128)
    (halone : Alone c cs.head?) (hd : isPlain d) (hnext : cs.head? = some d) :
    Scanned (c :: cs) (.ok (kind, 2)) := by
  rcases cs with - | ⟨e, cs⟩
  · cases hnext
  · cases hnext
    exact ⟨hkind, [c, d], cs, rfl, rfl, .other hc halone (List.forall_mem_singleton.2 hd)⟩

theorem punctuation_ascii : ∀ p ∈ punctuation, byte p.1 < 128 ∧ p.2 ≠ .eof ∧ byte p.1 ≠ percent := by decide

theorem lexPunct_scanned (start : SourcePosition) {c : UInt8} {cs : Bytes}
    (halone : c ≠ percent → Alone c cs.head?) : Scanned (c :: cs) (lexPunct start c cs.head?) := by
  have hone {d : UInt8} {kind : TokenKind} (hkind : kind ≠ .eof) (h : c = d) (hd : d < 128)
      (hpercent : d ≠ percent) : Scanned (c :: cs) (.ok (kind, 1)) :=
    scanned_one hkind (h ▸ hd) (halone (h ▸ hpercent))
  have htwo {d e : UInt8} {kind : TokenKind} (hkind : kind ≠ .eof) (h : c = d) (hd : d < 128)
      (hpercent : d ≠ percent) (he : isPlain e) (hnext : cs.head? = some e) :
      Scanned (c :: cs) (.ok (kind, 2)) :=
    scanned_two hkind (h ▸ hd) (halone (h ▸ hpercent)) he hnext
  unfold lexPunct
  split_ifs with hless heq hgr hgreater heq hcolon heq hdot heq
  · exact htwo TokenKind.noConfusion hless (by decide) (by decide) (by decide) heq
  · exact htwo TokenKind.noConfusion hless (by decide) (by decide) (by decide) hgr
  · exact hone TokenKind.noConfusion hless (by decide) (by decide)
  · exact htwo TokenKind.noConfusion hgreater (by decide) (by decide) (by decide) heq
  · exact hone TokenKind.noConfusion hgreater (by decide) (by decide)
  · exact htwo TokenKind.noConfusion hcolon (by decide) (by decide) (by decide) heq
  · exact hone TokenKind.noConfusion hcolon (by decide) (by decide)
  · exact htwo TokenKind.noConfusion hdot (by decide) (by decide) (by decide) heq
  · exact hone TokenKind.noConfusion hdot (by decide) (by decide)
  · cases hfind : punctuation.find? (byte ·.1 = c) with
    | none => exact ⟨_, _, rfl⟩
    | some p =>
      obtain ⟨hascii, hkind, hpercent⟩ := punctuation_ascii p (List.mem_of_find?_eq_some hfind)
      have hc : byte p.1 = c := by simpa using List.find?_some hfind
      exact hone hkind hc.symm hascii hpercent

theorem lexToken_scanned (start : SourcePosition) {c : UInt8} {cs : Bytes}
    (hcomment : ¬ (c = lparen ∧ cs.head? = some star)) (hline : ¬ (c = slash ∧ cs.head? = some slash)) :
    Scanned (c :: cs) (lexToken start c cs) := by
  unfold lexToken
  split_ifs with hpragma hident hdigit hstring
  · obtain ⟨rfl, hhead⟩ := hpragma
    rcases cs with - | ⟨d, cs⟩
    · cases hhead
    · cases hhead
      exact lexPragma_scanned start cs
  · exact lexIdent_scanned cs hident
  · exact lexNumber_scanned start cs hdigit
  · exact lexString_scanned start hstring cs
  · exact lexPunct_scanned start fun hpercent => ⟨hcomment, hline, hpragma, hpercent, hstring⟩

/-! ## The loop -/

/-- Behind `before`, the tokens of `src`. -/
inductive Covered : Bytes → Bytes → List Token → Prop
  | eof {before gap : Bytes} (hgap : Trivia [] gap) :
      Covered before gap [⟨.eof, ⟨positionBehind (before ++ gap), positionBehind (before ++ gap)⟩⟩]
  | token {before gap text rest : Bytes} {kind : TokenKind} {toks : List Token}
      (hgap : Trivia (text ++ rest) gap) (hkind : kind ≠ .eof) (htext : TokenText rest text) :
      Covered (before ++ gap ++ text) rest toks →
      Covered before (gap ++ (text ++ rest))
        (⟨kind, ⟨positionBehind (before ++ gap), positionBehind (before ++ gap ++ text)⟩⟩ :: toks)

/-- The next token behind `before`. -/
def Next (before src : Bytes) : Except Failure (Token × Cursor) → Prop
  | .ok (token, c) => ∃ gap text, src = gap ++ (text ++ c.rest) ∧ Trivia (text ++ c.rest) gap ∧
      token.span = ⟨positionBehind (before ++ gap), positionBehind (before ++ gap ++ text)⟩ ∧
      c.pos = positionBehind (before ++ gap ++ text) ∧
      (token.kind = .eof ∧ text = [] ∧ c.rest = [] ∨ token.kind ≠ .eof ∧ TokenText c.rest text)
  | .error e => ∃ message at_, e = .error message at_

theorem nextToken_next (before src : Bytes) :
    Next before src (nextToken ⟨src, positionBehind before⟩) := by
  have hskip := skipTrivia_skipped (positionBehind before) (Nat.zero_le src.length)
  simp only [nextToken, bind, Except.bind]
  generalize skipTrivia 0 (positionBehind before) src = skipped at hskip
  rcases skipped with e | c
  · exact hskip
  obtain ⟨⟨gap, hsrc, hpos, hgap⟩, hcomment, hline⟩ := hskip
  rw [List.drop_zero] at hsrc
  rw [List.take_zero, List.nil_append, foldl_next] at hpos
  obtain ⟨rest, pos⟩ := c
  simp only at hsrc hpos hgap hcomment hline ⊢
  subst hsrc hpos
  rcases rest with - | ⟨b, bs⟩
  · refine ⟨gap, [], rfl, hgap, ?_, ?_, .inl ⟨rfl, rfl, rfl⟩⟩
    · rw [List.append_nil]
    · rw [List.append_nil]
  · simp only [List.head?_cons, List.tail_cons, Option.some_inj] at hcomment hline ⊢
    have hscan := lexToken_scanned (positionBehind (before ++ gap)) hcomment hline
    generalize lexToken (positionBehind (before ++ gap)) b bs = scanned at hscan
    rcases scanned with e | ⟨kind, n⟩
    · exact hscan
    obtain ⟨hkind, text, rest, hsrc, rfl, htext⟩ := hscan
    have hadvance : Cursor.advance ⟨b :: bs, positionBehind (before ++ gap)⟩ text.length =
        ⟨rest, positionBehind (before ++ gap ++ text)⟩ := by
      rw [Cursor.advance, hsrc, List.drop_left, List.take_left, foldl_next]
    simp only [hadvance]
    rw [hsrc] at hgap ⊢
    exact ⟨gap, text, rfl, hgap, rfl, rfl, .inr ⟨hkind, htext⟩⟩

/-- What becomes of a text behind `before`. -/
def Tokenized (before src : Bytes) : Except Failure (List Token) → Prop
  | .ok toks => Covered before src toks
  | .error e => ∃ message at_, e = .error message at_

theorem tokens_tokenized {fuel : Nat} (before src : Bytes) (hfuel : src.length < fuel) :
    Tokenized before src (tokens fuel ⟨src, positionBehind before⟩) := by
  induction fuel generalizing before src with
  | zero => exact absurd hfuel (Nat.not_lt_zero _)
  | succ fuel ih =>
    have hnext := nextToken_next before src
    simp only [tokens, bind, Except.bind]
    generalize nextToken ⟨src, positionBehind before⟩ = next at hnext
    rcases next with e | ⟨⟨kind, span⟩, ⟨rest, pos⟩⟩
    · exact hnext
    obtain ⟨gap, text, rfl, hgap, rfl, rfl, ⟨rfl, rfl, rfl⟩ | ⟨hkind, htext⟩⟩ := hnext
    · simp only [List.append_nil, reduceIte]
      exact .eof hgap
    · simp only [if_neg hkind]
      have hshort : rest.length < fuel := by
        have hpos := List.length_pos_of_ne_nil htext.ne_nil
        simp only [List.length_append] at hfuel
        omega
      have hrest := ih (before ++ gap ++ text) rest hshort
      generalize tokens fuel ⟨rest, positionBehind (before ++ gap ++ text)⟩ = r at hrest
      rcases r with e | toks
      · exact hrest
      · exact .token hgap hkind htext hrest

/-! ## What is covered -/

namespace Covered

theorem eof_last {before src : Bytes} {toks : List Token} (h : Covered before src toks) :
    ∃ init last, toks = init ++ [last] ∧ last.kind = .eof ∧
      last.span = ⟨positionBehind (before ++ src), positionBehind (before ++ src)⟩ ∧
      ∀ t ∈ init, t.kind ≠ .eof ∧ t.span.start.offset < t.span.stop.offset := by
  induction h with
  | eof hgap => exact ⟨[], _, rfl, rfl, rfl, by simp⟩
  | @token before gap text rest kind toks hgap hkind htext _ ih =>
    obtain ⟨init, last, rfl, hlast, hspan, hinit⟩ := ih
    refine ⟨_ :: init, last, rfl, hlast, ?_, List.forall_mem_cons.2 ⟨⟨hkind, ?_⟩, hinit⟩⟩
    · simpa using hspan
    · have hpos := List.length_pos_of_ne_nil htext.ne_nil
      simp only [positionBehind, List.length_append]
      omega

/-- A token begins behind what was read before it. -/
theorem le_start {before src : Bytes} {toks : List Token} (h : Covered before src toks) :
    ∀ t ∈ toks, before.length ≤ t.span.start.offset := by
  induction h with
  | eof hgap => simp [positionBehind]
  | token hgap hkind htext _ ih =>
    refine List.forall_mem_cons.2 ⟨by simp [positionBehind], fun t ht => ?_⟩
    refine Nat.le_trans ?_ (ih t ht)
    simp only [List.length_append]
    omega

theorem ordered {before src : Bytes} {toks : List Token} (h : Covered before src toks) :
    toks.Pairwise fun s t => s.span.start.offset < s.span.stop.offset ∧
      s.span.stop.offset ≤ t.span.start.offset := by
  induction h with
  | eof hgap => exact List.pairwise_singleton _ _
  | token hgap hkind htext hrest ih =>
    refine List.pairwise_cons.2 ⟨fun t ht => ⟨?_, hrest.le_start t ht⟩, ih⟩
    have hpos := List.length_pos_of_ne_nil htext.ne_nil
    simp only [positionBehind, List.length_append]
    omega

theorem positions {before src : Bytes} {toks : List Token} (h : Covered before src toks) :
    ∀ t ∈ toks, t.span.start = position (before ++ src) t.span.start.offset ∧
      t.span.stop = position (before ++ src) t.span.stop.offset := by
  have hbehind (a b : Bytes) : positionBehind a = position (a ++ b) (positionBehind a).offset :=
    (position_append a b).symm
  induction h with
  | @eof before gap hgap =>
    have hend := hbehind (before ++ gap) []
    rw [List.append_nil] at hend
    exact List.forall_mem_singleton.2 ⟨hend, hend⟩
  | @token before gap text rest kind toks hgap hkind htext _ ih =>
    refine List.forall_mem_cons.2 ⟨⟨?_, ?_⟩, ?_⟩
    · simpa using hbehind (before ++ gap) (text ++ rest)
    · simpa using hbehind (before ++ gap ++ text) rest
    · simpa using ih

theorem boundaries {before src : Bytes} {toks : List Token} (h : Covered before src toks) {cs : List Char}
    (hcs : encode cs = before ++ src) :
    ∀ t ∈ toks, Boundary cs t.span.start.offset ∧ Boundary cs t.span.stop.offset := by
  induction h with
  | @eof before gap hgap =>
    have hend := boundary_length cs
    rw [hcs] at hend
    exact List.forall_mem_singleton.2 ⟨hend, hend⟩
  | @token before gap text rest kind toks hgap hkind htext _ ih =>
    refine List.forall_mem_cons.2 ⟨⟨?_, ?_⟩, ih (by simpa using hcs)⟩
    · obtain ⟨x, tail, rfl, hx⟩ := htext.first
      exact boundary_before (a := before ++ gap) (by simpa using hcs) hx
    · obtain ⟨init, x, rfl, hx⟩ := htext.last
      have hb := boundary_behind (a := before ++ gap ++ init) (b := rest) (by simpa using hcs) hx
      simpa [positionBehind, Nat.add_assoc] using hb

theorem gaps {before src : Bytes} {toks : List Token} (h : Covered before src toks) :
    ∀ p ∈ (before.length :: toks.map (·.span.stop.offset)).zip (toks.map (·.span.start.offset)),
      Trivia ((before ++ src).drop p.2) (((before ++ src).take p.2).drop p.1) := by
  induction h with
  | @eof before gap hgap =>
    refine List.forall_mem_singleton.2 ?_
    have htake := List.take_length (l := before ++ gap)
    simp only [positionBehind, htake, List.drop_left, List.drop_length]
    exact hgap
  | @token before gap text rest kind toks hgap hkind htext _ ih =>
    refine List.forall_mem_cons.2 ⟨?_, ?_⟩
    · have hsplit : before ++ (gap ++ (text ++ rest)) = (before ++ gap) ++ (text ++ rest) := by simp
      simp only [positionBehind, hsplit, List.drop_left, List.take_left]
      exact hgap
    · rw [← List.append_assoc, ← List.append_assoc]
      exact ih

end Covered

/-- The tokens of a source are all of it but space and comments. -/
structure Coverage (source : String) (toks : List Token) : Prop where
  /-- The last token and no other is the end of the text; the others are not empty. -/
  eof : ∃ init last, toks = init ++ [last] ∧ last.kind = .eof ∧
    last.span.start.offset = (encode source.toList).length ∧
    last.span.stop.offset = (encode source.toList).length ∧
    ∀ t ∈ init, t.kind ≠ .eof ∧ t.span.start.offset < t.span.stop.offset
  ordered : toks.Pairwise fun s t =>
    s.span.start.offset < s.span.stop.offset ∧ s.span.stop.offset ≤ t.span.start.offset
  boundaries : ∀ t ∈ toks,
    Boundary source.toList t.span.start.offset ∧ Boundary source.toList t.span.stop.offset
  /-- From the end of each token, and from the begin of the text, to the begin of the next one. -/
  gaps : ∀ p ∈ (0 :: toks.map (·.span.stop.offset)).zip (toks.map (·.span.start.offset)),
    Trivia ((encode source.toList).drop p.2) (((encode source.toList).take p.2).drop p.1)
  positions : ∀ t ∈ toks,
    t.span.start = position (encode source.toList) t.span.start.offset ∧
      t.span.stop = position (encode source.toList) t.span.stop.offset

theorem Covered.coverage {source : String} {toks : List Token}
    (h : Covered [] (encode source.toList) toks) : Coverage source toks where
  eof := by
    obtain ⟨init, last, htoks, hkind, hspan, hinit⟩ := h.eof_last
    exact ⟨init, last, htoks, hkind, by rw [hspan]; rfl, by rw [hspan]; rfl, hinit⟩
  ordered := h.ordered
  boundaries := h.boundaries rfl
  gaps := h.gaps
  positions := h.positions

theorem tokenize_covers (source : String) :
    (∃ toks, tokenize (encode source.toList) = .ok toks ∧ Coverage source toks) ∨
      ∃ message at_, tokenize (encode source.toList) = .error (.error message at_) := by
  have h : Tokenized [] (encode source.toList) (tokenize (encode source.toList)) :=
    tokens_tokenized [] _ (Nat.lt_succ_self _)
  generalize tokenize (encode source.toList) = r at h
  rcases r with e | toks
  · obtain ⟨message, at_, rfl⟩ := h
    exact .inr ⟨message, at_, rfl⟩
  · exact .inl ⟨toks, rfl, h.coverage⟩

end NewM2.Lexer
