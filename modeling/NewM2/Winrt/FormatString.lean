import Mathlib
import NewM2.Winrt.Conversions

/-!
# Formatting (`library/winrtmod/FormatString.mod`)

The format is read only, so a position in it is the list of the characters from there on. `parse` is the
grammar of formats, `expand` what the items of a format stand for. -/

namespace NewM2.Winrt.FormatString
open Chars Digits Output Money Conversions

/-- A string argument is NUL-terminated. -/
abbrev Terminated := { s : Chars // s.length < s.size }

structure FormatArg where
  num : Word
  /-- NIL, or the string. -/
  str : Option Terminated
deriving DecidableEq

def maxWidth : Nat := 256

/-- The variables of `Format`: `dest`, `di` and `ok` are the sink. -/
structure State where
  sink : Sink
  ai : Nat
  scratch : Chars
deriving DecidableEq

/-- `IF (s[i] >= 'A') AND (s[i] <= 'Z') THEN s[i] := CHR(ORD(s[i]) + 32) END` -/
def lowerCode (c : Code) : Code := if code 'A' ≤ c ∧ c ≤ code 'Z' then c + 32 else c

def lowerLoop (n i : Nat) (s : Chars) : Except Fault Chars :=
  if i < n then do
    let c ← s.get i
    let s ← s.put i (lowerCode c)
    lowerLoop n (i + 1) s
  else .ok s
termination_by n - i

def lower (s : Chars) : Except Fault Chars := lowerLoop s.length 0 s

/-! ## Emitting -/

def emitCh (ch : Code) (q : Sink) : Except Fault Sink :=
  if q.pos + 1 < q.out.size then do
    let dest ← q.out.put q.pos ch
    .ok ⟨dest, q.pos + 1, q.ok⟩
  else .ok { q with ok := false }

/-- `WHILE k < slen DO EmitCh(s[k]); INC(k) END` -/
def emitText (s : Chars) (slen k : Nat) (q : Sink) : Except Fault Sink :=
  if k < slen then do
    let c ← s.get k
    let q ← emitCh c q
    emitText s slen (k + 1) q
  else .ok q
termination_by slen - k

/-- `WHILE k < pad DO EmitCh(ch); INC(k) END` -/
def emitPad (ch : Code) : Nat → Sink → Except Fault Sink
  | 0, q => .ok q
  | pad + 1, q => do
    let q ← emitCh ch q
    emitPad ch pad q

def isSign (c : Code) : Bool := c = code '-' ∨ c = code '+'

/-- `(slen > 0) AND ((s[0] = '-') OR (s[0] = '+'))` -/
def isSigned (s : Chars) : Except Fault Bool :=
  if 0 < s.length then do
    let c ← s.get 0
    .ok (isSign c)
  else .ok false

def emitField (left zero : Bool) (width : Nat) (s : Chars) (numericField : Bool) (q : Sink) :
    Except Fault Sink :=
  let slen := s.length
  if width ≤ slen then emitText s slen 0 q
  else
    let pad := width - slen
    if left then do
      let q ← emitText s slen 0 q
      emitPad (code ' ') pad q
    else if zero ∧ numericField then do
      let signed ← isSigned s
      let start := if signed then 1 else 0
      let q ← emitText s start 0 q
      let q ← emitPad (code '0') pad q
      emitText s slen start q
    else do
      let q ← emitPad (code ' ') pad q
      emitText s slen 0 q

/-- The characters that are emitted for `\c`. -/
def escaped (c : Code) : List Code :=
  if c = code 'n' then [BitVec.ofNat 16 13, BitVec.ofNat 16 10]
  else if c = code 't' then [BitVec.ofNat 16 9]
  else if c = code 'r' then [BitVec.ofNat 16 13]
  else [c]

def emitEach : List Code → Sink → Except Fault Sink
  | [], q => .ok q
  | c :: cs, q => do
    let q ← emitCh c q
    emitEach cs q

/-! ## Directives -/

/-- `s := v`, from the index `i` on. -/
def assignFrom : List Code → Nat → Chars → Except Fault Chars
  | [], i, s => s.put i nul
  | c :: v, i, s => do
    let s ← s.put i c
    assignFrom v (i + 1) s

def boolText (num : Word) : List Code :=
  (if num ≠ 0 then ['T', 'R', 'U', 'E'] else ['F', 'A', 'L', 'S', 'E']).map code

/-- The CASE on the letter: `numeric`, and `scratch`. -/
def convert (letter : Code) (num : Word) (scratch : Chars) : Except Fault (Bool × Chars) :=
  if letter = code 'd' ∨ letter = code 'i' then do
    let (_, scratch) ← intToStr num scratch
    .ok (true, scratch)
  else if letter = code 'u' then do
    let (_, scratch) ← cardToStr num scratch
    .ok (true, scratch)
  else if letter = code 'x' then do
    let (_, scratch) ← cardBaseToStr num 16 scratch
    let scratch ← lower scratch
    .ok (true, scratch)
  else if letter = code 'X' then do
    let (_, scratch) ← cardBaseToStr num 16 scratch
    .ok (true, scratch)
  else if letter = code 'b' then do
    let scratch ← assignFrom (boolText num) 0 scratch
    .ok (false, scratch)
  else if letter = code 'c' then do
    let scratch ← scratch.put 0 (num.setWidth 16)
    let scratch ← scratch.put 1 nul
    .ok (false, scratch)
  else do
    let scratch ← scratch.put 0 nul
    .ok (false, scratch)

/-- From the letter of a directive on. -/
def directive (args : List FormatArg) (argCount : Nat) (left zero : Bool) (width : Nat) (letter : Code)
    (q : State) : Except Fault State :=
  if letter = code '%' then do
    let sink ← emitCh (code '%') q.sink
    .ok { q with sink := sink }
  else if argCount ≤ q.ai then .ok { q with sink := { q.sink with ok := false } }
  else
    match args[q.ai]? with
    | none => .error .outside
    | some arg => do
      let (numeric, scratch) ← convert letter arg.num q.scratch
      if letter = code 's' then
        match arg.str with
        | none => do
          let scratch ← scratch.put 0 nul
          let sink ← emitField left zero width scratch false q.sink
          .ok ⟨sink, q.ai + 1, scratch⟩
        | some sp => do
          let sink ← emitField left zero width sp.1 false q.sink
          .ok ⟨sink, q.ai + 1, scratch⟩
      else do
        let sink ← emitField left zero width scratch numeric q.sink
        .ok ⟨sink, q.ai + 1, scratch⟩

def isFlag (c : Code) : Bool := c = code '-' ∨ c = code '0'

/-- The flags: `left`, `zero`, and what is behind them. -/
def readFlags (left zero : Bool) : List Code → Bool × Bool × List Code
  | [] => (left, zero, [])
  | c :: s =>
    if isFlag c then if c = code '-' then readFlags true zero s else readFlags left true s
    else (left, zero, c :: s)

/-- The width, and what is behind it. -/
def readWidth (width : Nat) : List Code → Nat × List Code
  | [] => (width, [])
  | c :: s => if isDigit c then readWidth (wrap (width * 10 + Digits.digitVal c)) s else (width, c :: s)

theorem readFlags_length (left zero : Bool) (s : List Code) :
    (readFlags left zero s).2.2.length ≤ s.length := by
  induction s generalizing left zero with
  | nil => rfl
  | cons c s ih =>
    rw [readFlags]
    split_ifs
    · exact (ih true zero).trans (Nat.le_succ _)
    · exact (ih left true).trans (Nat.le_succ _)
    · exact le_rfl

theorem readWidth_length (width : Nat) (s : List Code) : (readWidth width s).2.length ≤ s.length := by
  induction s generalizing width with
  | nil => rfl
  | cons c s ih =>
    rw [readWidth]
    split_ifs
    · exact (ih _).trans (Nat.le_succ _)
    · exact le_rfl

/-- The loop of `Format`. -/
def formatLoop (args : List FormatArg) (argCount : Nat) : List Code → State → Except Fault State
  | [], q => .ok q
  | c :: s, q =>
    if c = nul then .ok q
    else if c = code '\\' then
      -- a NUL stands for the end of the array
      if s.headD nul = nul then .ok q
      else do
        let sink ← emitEach (escaped (s.headD nul)) q.sink
        formatLoop args argCount s.tail { q with sink := sink }
    else if c = code '%' then
      let flags := readFlags false false s
      let width := readWidth 0 flags.2.2
      match _h : width.2 with
      | [] => .ok q
      | letter :: s' => do
        let q ← directive args argCount flags.1 flags.2.1 (if maxWidth < width.1 then maxWidth else width.1)
          letter q
        formatLoop args argCount s' q
    else do
      let sink ← emitCh c q.sink
      formatLoop args argCount s { q with sink := sink }
termination_by s => s.length
decreasing_by
  · rw [List.length_tail, List.length_cons]
    omega
  · have hflags : flags.2.2.length ≤ s.length := readFlags_length false false s
    have hwidth := readWidth_length 0 flags.2.2
    rw [_h, List.length_cons] at hwidth
    rw [List.length_cons]
    omega
  · simp

/-- The result, and `dest`. -/
def format (fmt dest : Chars) (args : List FormatArg) (argCount : Nat) (scratch : Chars) :
    Except Fault (Bool × Chars) := do
  let q ← formatLoop args argCount fmt.cells ⟨⟨dest, 0, true⟩, 0, scratch⟩
  let dest ← (if q.sink.pos < dest.size then q.sink.out.put q.sink.pos nul else .ok q.sink.out)
  .ok (q.sink.ok, dest)

/-! ## The expansion of a format -/

inductive Item
  | char (c : Code)
  | escape (c : Code)
  /-- `%%` -/
  | percent
  /-- With the digits of the width. -/
  | directive (left zero : Bool) (width : List Code) (letter : Code)
deriving DecidableEq

/-- The items of a format, up to a NUL that is not the letter of a directive. -/
def parse : List Code → List Item
  | [] => []
  | c :: s =>
    if c = nul then []
    else if c = code '\\' then
      if s.headD nul = nul then [] else .escape (s.headD nul) :: parse s.tail
    else if c = code '%' then
      let flags := s.takeWhile isFlag
      let rest := s.dropWhile isFlag
      match _h : rest.dropWhile isDigit with
      | [] => []
      | letter :: s' =>
        (if letter = code '%' then .percent
          else .directive (flags.contains (code '-')) (flags.contains (code '0')) (rest.takeWhile isDigit) letter) ::
          parse s'
    else .char c :: parse s
termination_by s => s.length
decreasing_by
  · rw [List.length_tail, List.length_cons]
    omega
  · have hflags : rest.length ≤ s.length := (List.dropWhile_sublist isFlag (l := s)).length_le
    have hdigits := (List.dropWhile_sublist isDigit (l := rest)).length_le
    rw [_h, List.length_cons] at hdigits
    rw [List.length_cons]
    omega
  · simp

/-- A letter whose text is a number. -/
def isNumeric (letter : Code) : Bool :=
  letter ∈ [code 'd', code 'i', code 'u', code 'x', code 'X']

/-- An argument as a text. -/
def argText (letter : Code) (arg : FormatArg) : List Code :=
  if letter = code 'd' ∨ letter = code 'i' then
    signedText (if arg.num.toInt < 0 then code '-' else nul) 10 arg.num.toInt.natAbs
  else if letter = code 'u' then numeral 10 arg.num.toNat
  else if letter = code 'x' then (numeral 16 arg.num.toNat).map lowerCode
  else if letter = code 'X' then numeral 16 arg.num.toNat
  else if letter = code 'b' then boolText arg.num
  else if letter = code 'c' then [arg.num.setWidth 16].filter (· ≠ nul)
  else if letter = code 's' then (arg.str.map fun s => s.1.text).getD []
  else []

/-- A text in a field; the sign stands before the zeros. -/
def field (left zero : Bool) (width : Nat) (t : List Code) : List Code :=
  let pad := width - t.length
  if left then t ++ List.replicate pad (code ' ')
  else if zero then
    let sign := (t.take 1).filter isSign
    sign ++ List.replicate pad (code '0') ++ t.drop sign.length
  else List.replicate pad (code ' ') ++ t

/-- The expansion, where the digits `ds` stand for the width `W ds`; a directive without an argument is left
out. -/
def expand (W : List Code → Nat) : List Item → List FormatArg → List Code
  | [], _ => []
  | .char c :: is, args => c :: expand W is args
  | .escape c :: is, args => escaped c ++ expand W is args
  | .percent :: is, args => code '%' :: expand W is args
  | .directive .. :: is, [] => expand W is []
  | .directive left zero ds letter :: is, arg :: args =>
    field left (zero && isNumeric letter) (W ds) (argText letter arg) ++ expand W is args

/-- The number of arguments that a format takes. -/
def arity : List Item → Nat
  | [] => 0
  | .char _ :: is => arity is
  | .escape _ :: is => arity is
  | .percent :: is => arity is
  | .directive .. :: is => arity is + 1

/-- The width of a field, whatever the number of its digits. -/
def capped (ds : List Code) : Nat := min (digitsValue ds) maxWidth

/-- The destination has what there is room for of the expansion of the text of the format, and a NUL. -/
def FormatExact (fmt : Chars) : Prop :=
  ∀ dest args argCount scratch, argCount ≤ args.length → scratch.size = 80 →
    ∃ ok dest', format fmt dest args argCount scratch = .ok (ok, dest') ∧ dest'.size = dest.size ∧
      (expand capped (parse fmt.text) (args.take argCount)).take (dest.size - 1) ++ [nul] <+: dest'.cells ∧
      (ok = true ↔ (expand capped (parse fmt.text) (args.take argCount)).length < dest.size ∧
        arity (parse fmt.text) ≤ argCount)

/-! ## Reading a directive -/

section reading
variable {left zero : Bool} {c : Code} {s v w : List Code}

theorem readFlags_eq (left zero : Bool) (s : List Code) : readFlags left zero s =
    (left || (s.takeWhile isFlag).contains (code '-'), zero || (s.takeWhile isFlag).contains (code '0'),
      s.dropWhile isFlag) := by
  induction s generalizing left zero with
  | nil => simp [readFlags]
  | cons c s ih =>
    rw [readFlags, List.takeWhile_cons, List.dropWhile_cons]
    by_cases hc : isFlag c
    · rw [if_pos hc, if_pos hc, if_pos hc]
      by_cases hminus : c = code '-'
      · rw [if_pos hminus, ih, hminus]
        simp [code]
      · have hzero : c = code '0' := by simpa [isFlag, hminus] using hc
        rw [if_neg hminus, ih, hzero]
        simp [code]
    · rw [if_neg hc, if_neg hc, if_neg hc]
      simp

theorem readWidth_eq (p s : List Code) : readWidth (wrap (digitsValue p)) s =
    (wrap (digitsValue (p ++ s.takeWhile isDigit)), s.dropWhile isDigit) := by
  induction s generalizing p with
  | nil => simp [readWidth]
  | cons c s ih =>
    rw [readWidth, List.takeWhile_cons, List.dropWhile_cons]
    by_cases hc : isDigit c
    · have hstep : wrap (wrap (digitsValue p) * 10 + Digits.digitVal c) = wrap (digitsValue (p ++ [c])) := by
        rw [digitsValue_concat, wrap, wrap, wrap]
        omega
      rw [if_pos hc, if_pos hc, if_pos hc, hstep, ih, List.append_assoc, List.singleton_append]
    · rw [if_neg hc, if_neg hc, if_neg hc]
      simp

/-- The width of a field as `Format` computes it: the sum wraps around. -/
def wrapped (ds : List Code) : Nat := min (wrap (digitsValue ds)) maxWidth

end reading

/-! ## Emitting a field -/

section emitting
variable {n k : Nat} {fine : Bool} {w : List Code} {q : Sink} {allowed : Fault → Prop} {s : Chars}

theorem emitCh_runs (h : Emitted (n - 1) n fine w q) (ch : Code) :
    Runs allowed (emitCh ch q) (Emitted (n - 1) n fine (w ++ [ch])) := by
  have hroom : q.pos + 1 < q.out.size ↔ q.pos < n - 1 := by
    rw [h.size]
    omega
  have heq : emitCh ch q = emit (n - 1) ch q := by simp only [emitCh, emit, hroom]
  rw [heq]
  exact emit_runs (Nat.sub_le n 1) h ch

theorem emitEach_runs {w : List Code} {q : Sink} (h : Emitted (n - 1) n fine w q) (cs : List Code) :
    Runs allowed (emitEach cs q) (Emitted (n - 1) n fine (w ++ cs)) := by
  induction cs generalizing w q with
  | nil =>
    rw [List.append_nil]
    exact Runs.ok h
  | cons c cs ih =>
    refine (emitCh_runs h c).bind fun q' hq' => ?_
    rw [← List.singleton_append, ← List.append_assoc]
    exact ih hq'

theorem emitPad_runs {w : List Code} {q : Sink} (h : Emitted (n - 1) n fine w q) (ch : Code) (pad : Nat) :
    Runs allowed (emitPad ch pad q) (Emitted (n - 1) n fine (w ++ List.replicate pad ch)) := by
  induction pad generalizing w q with
  | zero =>
    rw [List.replicate_zero, List.append_nil]
    exact Runs.ok h
  | succ pad ih =>
    refine (emitCh_runs h ch).bind fun q' hq' => ?_
    rw [List.replicate_succ, ← List.singleton_append, ← List.append_assoc]
    exact ih hq'

/-- The characters `k .. slen - 1` are emitted. -/
theorem emitText_runs {k : Nat} {w : List Code} {q : Sink} {slen : Nat} (h : Emitted (n - 1) n fine w q)
    (hslen : slen ≤ s.length) :
    Runs allowed (emitText s slen k q) (Emitted (n - 1) n fine (w ++ (s.text.take slen).drop k)) := by
  have hlen : (s.text.take slen).length = slen := by
    rw [List.length_take, ← length_eq, Nat.min_eq_left hslen]
  rw [emitText]
  split_ifs with hk
  · obtain ⟨c, hget, hc⟩ := get_text (hk.trans_le hslen)
    have hdrop : (s.text.take slen).drop k = c :: (s.text.take slen).drop (k + 1) := by
      have hc' : (s.text.take slen)[k]? = some c := by rw [List.getElem?_take, if_pos hk, hget]
      rw [List.drop_eq_getElem_cons (by omega), (List.getElem?_eq_some_iff.1 hc').2]
    rw [hc, hdrop, ← List.singleton_append, ← List.append_assoc]
    exact (emitCh_runs h c).bind fun q' hq' => emitText_runs hq' hslen
  · rw [List.drop_of_length_le (by omega), List.append_nil]
    exact Runs.ok h
termination_by slen - k

theorem emitAllText_runs (h : Emitted (n - 1) n fine w q) :
    Runs allowed (emitText s s.length 0 q) (Emitted (n - 1) n fine (w ++ s.text)) := by
  have hrun : Runs allowed (emitText s s.length 0 q) _ := emitText_runs h le_rfl
  rwa [List.drop_zero, List.take_of_length_le (by rw [length_eq])] at hrun

theorem isSigned_eq (s : Chars) : isSigned s = .ok (((s.text.take 1).filter isSign).length = 1) := by
  rw [isSigned]
  split_ifs with h
  · obtain ⟨c, hget, hc⟩ := get_text h
    have htake : s.text.take 1 = [c] := by
      rw [List.take_one, List.head?_eq_getElem?, hget]
      rfl
    rw [hc, htake]
    by_cases hsign : isSign c <;> simp [bind, Except.bind, hsign]
  · have hnil : s.text = [] := List.length_eq_zero_iff.1 (by rw [← length_eq]; omega)
    rw [hnil]
    rfl

/-- The sign of a text. -/
def signOf (t : List Code) : List Code := (t.take 1).filter isSign

theorem signOf_le_text (t : List Code) : signOf t <+: t := by
  rcases t with - | ⟨c, t⟩
  · exact List.nil_prefix
  · by_cases hc : isSign c
    · exact ⟨t, by simp [signOf, hc]⟩
    · exact ⟨c :: t, by simp [signOf, hc]⟩

theorem length_signOf_le (t : List Code) : (signOf t).length ≤ 1 :=
  (List.length_filter_le _ _).trans (List.length_take_le 1 t)

theorem field_of_le {left zero : Bool} {width : Nat} {t : List Code} (h : width ≤ t.length) :
    field left zero width t = t := by
  have hsign : signOf t ++ t.drop (signOf t).length = t := List.prefix_append_drop (signOf_le_text t) |>.symm
  rw [field, Nat.sub_eq_zero_of_le h]
  simp only [List.replicate_zero, List.append_nil, List.nil_append]
  split_ifs
  · rfl
  · exact hsign
  · rfl

theorem emitField_runs (h : Emitted (n - 1) n fine w q) (left zero : Bool) (width : Nat) (s : Chars)
    (numericField : Bool) : Runs allowed (emitField left zero width s numericField q)
      (Emitted (n - 1) n fine (w ++ field left (zero && numericField) width s.text)) := by
  rw [emitField]
  dsimp only
  by_cases hwide : width ≤ s.length
  · rw [if_pos hwide, field_of_le (by rwa [← length_eq])]
    exact emitAllText_runs h
  rw [if_neg hwide, field, length_eq]
  dsimp only
  rw [← length_eq]
  by_cases hleft : left = true
  · rw [if_pos hleft, if_pos hleft, ← List.append_assoc]
    exact (emitAllText_runs h).bind fun q' hq' => emitPad_runs hq' _ _
  rw [if_neg hleft, if_neg hleft]
  by_cases hzero : zero = true ∧ numericField = true
  · rw [if_pos hzero, if_pos (by simp [hzero]), isSigned_eq]
    have hstart : (if decide ((signOf s.text).length = 1) then 1 else 0) = (signOf s.text).length := by
      have hle := length_signOf_le s.text
      split_ifs with hone
      · exact (of_decide_eq_true hone).symm
      · have hne : (signOf s.text).length ≠ 1 := fun h => hone (decide_eq_true h)
        omega
    have hle : (signOf s.text).length ≤ s.length := (signOf_le_text s.text).length_le.trans_eq (length_eq s).symm
    have htake : (s.text.take (signOf s.text).length).drop 0 = signOf s.text := by
      rw [List.drop_zero, ← List.prefix_iff_eq_take.1 (signOf_le_text s.text)]
    refine Runs.bind (show Runs allowed (.ok _) (· = _) from rfl) ?_
    rintro _ rfl
    change Runs allowed (do
      let q ← emitText s (if decide ((signOf s.text).length = 1) then 1 else 0) 0 q
      let q ← emitPad (code '0') (width - s.length) q
      emitText s s.length (if decide ((signOf s.text).length = 1) then 1 else 0) q) _
    rw [hstart]
    refine (emitText_runs h hle).bind fun q₁ hq₁ => ?_
    rw [htake] at hq₁
    refine (emitPad_runs hq₁ _ _).bind fun q₂ hq₂ => ?_
    have hrest : Runs allowed (emitText s s.length (signOf s.text).length q₂) _ := emitText_runs hq₂ (le_refl s.length)
    rw [List.take_of_length_le (by rw [length_eq])] at hrest
    simpa only [List.append_assoc, signOf] using hrest
  · rw [if_neg hzero, if_neg (by simpa using hzero), ← List.append_assoc]
    exact (emitPad_runs h _ _).bind fun q' hq' => emitAllText_runs hq'

end emitting

/-! ## Arguments as texts -/

section convert
variable {allowed : Fault → Prop} {letter : Code} {arg : FormatArg} {s scratch : Chars} {v w : List Code}

theorem lowerCode_ne_nul {c : Code} (h : c ≠ nul) : lowerCode c ≠ nul := by
  rw [lowerCode]
  split_ifs with hupper
  · intro hzero
    have hle : (code 'A').toNat ≤ c.toNat ∧ c.toNat ≤ (code 'Z').toNat := hupper
    have hA : (code 'A').toNat = 65 := rfl
    have hZ : (code 'Z').toNat = 90 := rfl
    have hsum := congrArg BitVec.toNat hzero
    rw [BitVec.toNat_add, show (32 : Code).toNat = 32 from rfl, show nul.toNat = 0 from rfl,
      Nat.mod_eq_of_lt (by omega)] at hsum
    omega
  · exact h

theorem set_append_cons {c d : Code} (v w : List Code) : (v ++ c :: w).set v.length d = v ++ d :: w := by
  rw [List.set_append_right _ _ le_rfl, Nat.sub_self, List.set_cons_zero]

/-- The characters of `v` are still to be changed. -/
theorem lowerLoop_runs {u v w : List Code} {s : Chars} (h : s.cells = u ++ v ++ w) :
    Runs allowed (lowerLoop (u.length + v.length) u.length s) fun s' =>
      s'.cells = u ++ v.map lowerCode ++ w := by
  induction v generalizing u s with
  | nil =>
    rw [lowerLoop, if_neg (by simp)]
    exact Runs.ok h
  | cons c v ih =>
    have hget : s.get u.length = .ok c := get_of_getElem? (by rw [h]; simp)
    have hlt : u.length < s.size := by
      rw [Chars.size, h]
      simp
    rw [lowerLoop, if_pos (by simp), hget]
    refine (put_runs hlt (lowerCode c)).bind fun s' hs' => ?_
    have hcells : s'.cells = (u ++ [lowerCode c]) ++ v ++ w := by
      rw [hs', h, List.append_assoc, List.cons_append, set_append_cons]
      simp
    have hrec := ih (u := u ++ [lowerCode c]) hcells
    rw [List.length_append, List.length_singleton] at hrec
    rw [List.length_cons, show u.length + (v.length + 1) = u.length + 1 + v.length by omega]
    refine hrec.mono fun s'' hs'' => ?_
    rw [hs'']
    simp

theorem lower_runs (s : Chars) : Runs allowed (lower s) fun s' =>
    s'.size = s.size ∧ s'.text = s.text.map lowerCode := by
  obtain ⟨rest, hcells, hrest⟩ := exists_rest s
  have hrun : Runs allowed (lowerLoop _ _ s) _ := lowerLoop_runs (u := []) (v := s.text) (w := rest) hcells
  rw [lower, length_eq]
  rw [List.length_nil, Nat.zero_add] at hrun
  refine hrun.mono fun s' hs' => ⟨?_, text_of_rest hs' ?_ hrest⟩
  · rw [Chars.size, Chars.size, hs', hcells]
    simp
  · intro hmem
    obtain ⟨c, hc, hnul⟩ := List.mem_map.1 hmem
    exact lowerCode_ne_nul (fun h => s.nul_notMem_text (h ▸ hc)) hnul

theorem assignFrom_runs {i : Nat} {v : List Code} {s : Chars} (h : i + v.length < s.size) :
    Runs allowed (assignFrom v i s) fun s' => s'.size = s.size ∧
      (∀ j, j < i → s'.cells[j]? = s.cells[j]?) ∧ ∀ j, j ≤ v.length → s'.cells[i + j]? = (v ++ [nul])[j]? := by
  have hsize : ∀ {s' : Chars} {c : Code}, s'.cells = s.cells.set i c → s'.size = s.size := fun h => by
    rw [Chars.size, h, List.length_set, Chars.size]
  induction v generalizing i s with
  | nil =>
    rw [List.length_nil, Nat.add_zero] at h
    refine (put_runs h nul).mono fun s' hs' => ⟨hsize hs', fun j hj => ?_, fun j hj => ?_⟩
    · rw [hs', List.getElem?_set_ne (by omega)]
    · obtain rfl : j = 0 := Nat.le_zero.1 hj
      rw [hs', Nat.add_zero, List.getElem?_set_self (show i < s.cells.length from h)]
      rfl
  | cons c v ih =>
    rw [List.length_cons] at h
    refine (put_runs (by omega) c).bind fun s₁ hs₁ => ?_
    have hsz := hsize hs₁
    have hnext : i + 1 + v.length < s₁.size := by omega
    refine (ih hnext fun h' => by rw [Chars.size, h', List.length_set, Chars.size]).mono ?_
    rintro s' ⟨hs', hold, hnew⟩
    refine ⟨hs'.trans hsz, fun j hj => ?_, fun j hj => ?_⟩
    · rw [hold j (by omega), hs₁, List.getElem?_set_ne (by omega)]
    · rcases j with - | j
      · rw [Nat.add_zero, hold i (by omega), hs₁, List.getElem?_set_self (show i < s.cells.length from by
          rw [← Chars.size]; omega)]
        rfl
      · rw [show i + (j + 1) = i + 1 + j by omega, hnew j (by simpa using hj)]
        rfl

theorem assign_runs (hv : nul ∉ v) (h : v.length < s.size) :
    Runs allowed (assignFrom v 0 s) fun s' => s'.size = s.size ∧ s'.text = v := by
  refine (assignFrom_runs (by omega)).mono ?_
  rintro s' ⟨hsize, -, hnew⟩
  refine ⟨hsize, ?_⟩
  have hassigned : Assigned v s s' := Assigned.of_getElem? hsize fun j _ hj => by
    rw [← hnew j hj, Nat.zero_add]
  rw [hassigned.text hv, List.take_of_length_le h.le]

/-- A number in a buffer. -/
theorem number_runs {b n : Nat} (hb : 2 ≤ b) (hb' : b ≤ 16) (hn : n < 2 ^ 64) (sign : Code) (hs : s.size = 80)
    {x : Except Fault (Bool × Chars)} (hx : x = (do
      let q ← emitNumber n b 0 sign s 0
      .ok (q.ok, q.out))) :
    Runs allowed x fun r => r.2.size = 80 ∧ r.2.text = signedText sign b n := by
  rw [hx]
  exact (emitNumber_runs hb hb' hn (by omega) sign).bind fun q hq => Runs.ok ⟨hq.2.2.trans hs, hq.2.1⟩

theorem convert_runs (hs : scratch.size = 80) (letter : Code) (arg : FormatArg) :
    Runs allowed (convert letter arg.num scratch) fun r => r.2.size = 80 ∧
      (letter ≠ code 's' → r.1 = isNumeric letter ∧ r.2.text = argText letter arg) := by
  have hmag : (magU arg.num).toNat < 2 ^ 64 := (magU arg.num).isLt
  rw [convert, argText, isNumeric]
  by_cases hd : letter = code 'd' ∨ letter = code 'i'
  · rw [if_pos hd, if_pos hd]
    refine (number_runs (by decide) (by decide) hmag _ hs rfl).bind ?_
    rintro ⟨_, r⟩ ⟨hsize, htext⟩
    refine Runs.ok ⟨hsize, fun _ => ⟨?_, by rw [htext, magU_toNat]⟩⟩
    rcases hd with rfl | rfl <;> rfl
  rw [if_neg hd, if_neg hd]
  by_cases hu : letter = code 'u'
  · rw [if_pos hu, if_pos hu, hu]
    refine (number_runs (by decide) (by decide) arg.num.isLt nul hs rfl).bind ?_
    rintro ⟨_, r⟩ ⟨hsize, htext⟩
    exact Runs.ok ⟨hsize, fun _ => ⟨rfl, htext⟩⟩
  rw [if_neg hu, if_neg hu]
  by_cases hx : letter = code 'x'
  · rw [if_pos hx, if_pos hx, hx]
    refine (number_runs (by decide) (by decide) arg.num.isLt nul hs rfl).bind ?_
    rintro ⟨_, r⟩ ⟨hsize, htext⟩
    refine (lower_runs r).bind fun r' ⟨hsize', htext'⟩ => Runs.ok ⟨hsize'.trans hsize, fun _ => ⟨rfl, ?_⟩⟩
    rw [htext', htext]
    rfl
  rw [if_neg hx, if_neg hx]
  by_cases hX : letter = code 'X'
  · rw [if_pos hX, if_pos hX, hX]
    refine (number_runs (by decide) (by decide) arg.num.isLt nul hs rfl).bind ?_
    rintro ⟨_, r⟩ ⟨hsize, htext⟩
    exact Runs.ok ⟨hsize, fun _ => ⟨rfl, htext⟩⟩
  rw [if_neg hX, if_neg hX]
  have hnumeric : decide (letter ∈ [code 'd', code 'i', code 'u', code 'x', code 'X']) = false := by
    rw [not_or] at hd
    simp [hd.1, hd.2, hu, hx, hX]
  rw [hnumeric]
  by_cases hb : letter = code 'b'
  · rw [if_pos hb, if_pos hb]
    have htext : nul ∉ boolText arg.num ∧ (boolText arg.num).length ≤ 5 := by
      rw [boolText]
      split_ifs <;> decide
    exact (assign_runs htext.1 (by omega)).bind fun r hr => Runs.ok ⟨hr.1.trans hs, fun _ => ⟨rfl, hr.2⟩⟩
  rw [if_neg hb, if_neg hb]
  by_cases hc : letter = code 'c'
  · rw [if_pos hc, if_pos hc]
    refine (put_runs (by omega) _).bind fun r₀ hr₀ => ?_
    have hsize₀ : r₀.size = 80 := by rw [Chars.size, hr₀, List.length_set, ← Chars.size, hs]
    refine (put_runs (by omega) nul).bind fun r hr => Runs.ok ⟨?_, fun _ => ⟨rfl, ?_⟩⟩
    · rw [Chars.size, hr, List.length_set, ← Chars.size, hsize₀]
    · obtain ⟨c₀, c₁, rest, hcells⟩ : ∃ c₀ c₁ rest, scratch.cells = c₀ :: c₁ :: rest := by
        have hlen : scratch.cells.length = 80 := hs
        rcases hcells : scratch.cells with - | ⟨c₀, - | ⟨c₁, rest⟩⟩
        · simp [hcells] at hlen
        · simp [hcells] at hlen
        · exact ⟨c₀, c₁, rest, rfl⟩
      rw [hcells, List.set_cons_zero] at hr₀
      rw [hr₀, List.set_cons_succ, List.set_cons_zero] at hr
      rw [Chars.text, hr]
      by_cases hnul : arg.num.setWidth 16 = nul
      · simp [hnul]
      · simp [hnul]
  rw [if_neg hc, if_neg hc]
  refine (put_runs (by omega) nul).bind fun r hr => Runs.ok ⟨?_, fun hs' => ⟨rfl, ?_⟩⟩
  · rw [Chars.size, hr, List.length_set, ← Chars.size, hs]
  · rw [if_neg hs', Chars.text, hr]
    cases scratch.cells <;> simp

end convert

/-! ## The loop -/

section equations
variable {s s' : List Code} {letter : Code} {args : List FormatArg} {argCount : Nat} {q : State}

/-- The characters behind a `%` up to its letter. -/
def behindWidth (s : List Code) : List Code := (s.dropWhile isFlag).dropWhile isDigit

/-- The item of a directive. -/
def directiveItem (s : List Code) (letter : Code) : Item :=
  if letter = code '%' then .percent
  else .directive ((s.takeWhile isFlag).contains (code '-')) ((s.takeWhile isFlag).contains (code '0'))
    ((s.dropWhile isFlag).takeWhile isDigit) letter

theorem length_behindWidth (h : behindWidth s = letter :: s') : s'.length < s.length := by
  have hflags := (List.dropWhile_sublist isFlag (l := s)).length_le
  have hdigits := (List.dropWhile_sublist isDigit (l := s.dropWhile isFlag)).length_le
  rw [show (s.dropWhile isFlag).dropWhile isDigit = letter :: s' from h, List.length_cons] at hdigits
  omega

theorem parse_end (h : behindWidth s = []) : parse (code '%' :: s) = [] := by
  rw [parse, if_neg (by decide), if_neg (by decide), if_pos rfl]
  dsimp only
  split
  · rfl
  · next _ _ h' => exact absurd (h.symm.trans h') (by simp)

theorem parse_directive (h : behindWidth s = letter :: s') :
    parse (code '%' :: s) = directiveItem s letter :: parse s' := by
  rw [parse, if_neg (by decide), if_neg (by decide), if_pos rfl]
  dsimp only
  split
  · next h' => exact absurd (h.symm.trans h') (by simp)
  · next _ _ h' =>
    obtain ⟨rfl, rfl⟩ := List.cons.inj (h.symm.trans h')
    rfl

theorem read_eq (s : List Code) : readWidth 0 (readFlags false false s).2.2 =
    (wrap (digitsValue ((s.dropWhile isFlag).takeWhile isDigit)), behindWidth s) := by
  rw [readFlags_eq]
  exact readWidth_eq [] (s.dropWhile isFlag)

theorem formatLoop_end (h : behindWidth s = []) :
    formatLoop args argCount (code '%' :: s) q = .ok q := by
  rw [formatLoop, if_neg (by decide), if_neg (by decide), if_pos rfl]
  dsimp only
  have hread := congrArg Prod.snd (read_eq s)
  split
  · rfl
  · next _ _ h' => exact absurd (h.symm.trans (hread.symm.trans h')) (by simp)

theorem formatLoop_directive (h : behindWidth s = letter :: s') :
    formatLoop args argCount (code '%' :: s) q = (do
      let q ← directive args argCount ((s.takeWhile isFlag).contains (code '-'))
        ((s.takeWhile isFlag).contains (code '0')) (wrapped ((s.dropWhile isFlag).takeWhile isDigit)) letter q
      formatLoop args argCount s' q) := by
  have hcap : ∀ x : Nat, (if maxWidth < x then maxWidth else x) = min x maxWidth := fun x => by
    split_ifs <;> omega
  rw [formatLoop, if_neg (by decide), if_neg (by decide), if_pos rfl]
  dsimp only
  have hread := read_eq s
  split
  · next h' => exact absurd (h.symm.trans ((congrArg Prod.snd hread).symm.trans h')) (by simp)
  · next _ _ h' =>
    obtain ⟨rfl, rfl⟩ := List.cons.inj (h.symm.trans ((congrArg Prod.snd hread).symm.trans h'))
    rw [hcap, hread, readFlags_eq]
    rfl

end equations

section loop
variable {n argCount m : Nat} {args : List FormatArg} {w s : List Code} {q : State} {allowed : Fault → Prop}

/-- The loop has come across `m` directives and emitted `w`. -/
structure Reached (n argCount m : Nat) (w : List Code) (q : State) : Prop where
  sink : Emitted (n - 1) n (decide (m ≤ argCount)) w q.sink
  ai : q.ai = min m argCount
  scratch : q.scratch.size = 80

/-- The field of a directive, with the first one of the arguments. -/
def fieldOf (left zero : Bool) (width : Nat) (letter : Code) : List FormatArg → List Code
  | [] => []
  | arg :: _ => field left (zero && isNumeric letter) width (argText letter arg)

theorem directive_runs {letter : Code} (h : Reached n argCount m w q) (hcount : argCount ≤ args.length)
    (left zero : Bool) (width : Nat) (hletter : letter ≠ code '%') :
    Runs allowed (directive args argCount left zero width letter q) (Reached n argCount (m + 1)
      (w ++ fieldOf left zero width letter ((args.take argCount).drop m))) := by
  have hai := h.ai
  rw [directive, if_neg hletter]
  by_cases hmore : m < argCount
  · have hget : (args.take argCount)[m]? = some args[m] := by
      rw [List.getElem?_take, if_pos hmore, List.getElem?_eq_getElem]
    have hdrop : (args.take argCount).drop m = args[m] :: (args.take argCount).drop (m + 1) := by
      rw [List.drop_eq_getElem_cons (by rw [List.length_take]; omega), (List.getElem?_eq_some_iff.1 hget).2]
    have hm : q.ai = m := by omega
    have hfine : decide (m ≤ argCount) = decide (m + 1 ≤ argCount) := by
      rw [decide_eq_true hmore.le, decide_eq_true (show m + 1 ≤ argCount from hmore)]
    have hsink := h.sink
    rw [hfine] at hsink
    have harg : args[q.ai]? = some args[m] := by rw [hm, List.getElem?_eq_getElem]
    rw [if_neg (by omega), harg, hdrop, fieldOf]
    dsimp only
    generalize args[m] = arg
    refine (convert_runs h.scratch letter arg).bind ?_
    rintro ⟨numeric, scratch⟩ ⟨hsize, htext⟩
    dsimp only at hsize htext ⊢
    by_cases hs : letter = code 's'
    · have hnumeric : isNumeric letter = false := by
        rw [hs]
        rfl
      rw [if_pos hs, hnumeric]
      rcases hstr : arg.str with - | sp
      · dsimp only
        refine (put_runs (by omega) nul).bind fun scratch' hs' => ?_
        have hempty : scratch'.text = argText letter arg := by
          rw [Chars.text, hs', hs]
          cases scratch.cells <;> simp [argText, hstr, code]
        refine (emitField_runs hsink left zero width scratch' false).bind fun sink hsink' => ?_
        rw [hempty] at hsink'
        refine Runs.ok ⟨hsink', by dsimp only; omega, ?_⟩
        rw [Chars.size, hs', List.length_set, ← Chars.size, hsize]
      · dsimp only
        have hpointed : sp.1.text = argText letter arg := by
          rw [hs]
          simp [argText, hstr, code]
        refine (emitField_runs hsink left zero width sp.1 false).bind fun sink hsink' => ?_
        rw [hpointed] at hsink'
        exact Runs.ok ⟨hsink', by dsimp only; omega, hsize⟩
    · obtain ⟨rfl, hconverted⟩ := htext hs
      rw [if_neg hs]
      refine (emitField_runs hsink left zero width scratch _).bind fun sink hsink' => ?_
      rw [hconverted] at hsink'
      exact Runs.ok ⟨hsink', by dsimp only; omega, hsize⟩
  · have hdrop : (args.take argCount).drop m = [] := List.drop_of_length_le (by rw [List.length_take]; omega)
    rw [if_pos (by omega), hdrop, fieldOf, List.append_nil]
    refine Runs.ok ⟨?_, by dsimp only; omega, h.scratch⟩
    refine ⟨h.sink.size, h.sink.pos, ?_, h.sink.cells⟩
    rw [decide_eq_false (show ¬ m + 1 ≤ argCount by omega), Bool.false_and]

theorem expand_directive {W : List Code → Nat} {left zero : Bool} {ds : List Code} {letter : Code}
    (is : List Item) (as : List FormatArg) : expand W (.directive left zero ds letter :: is) as =
      fieldOf left zero (W ds) letter as ++ expand W is as.tail := by
  cases as <;> rfl

theorem formatLoop_runs {m : Nat} {w s : List Code} {q : State} (h : Reached n argCount m w q)
    (hcount : argCount ≤ args.length) :
    Runs allowed (formatLoop args argCount s q) (Reached n argCount (m + arity (parse s))
      (w ++ expand wrapped (parse s) ((args.take argCount).drop m))) := by
  have hend : ∀ {as}, Reached n argCount (m + arity []) (w ++ expand wrapped [] as) q := by
    intro as
    rw [expand, List.append_nil]
    exact h
  rcases s with - | ⟨c, s⟩
  · rw [formatLoop, parse]
    exact Runs.ok hend
  by_cases hnul : c = nul
  · rw [formatLoop, parse, if_pos hnul, if_pos hnul]
    exact Runs.ok hend
  by_cases hesc : c = code '\\'
  · rw [formatLoop, parse, if_neg hnul, if_neg hnul, if_pos hesc, if_pos hesc]
    by_cases he : s.headD nul = nul
    · rw [if_pos he, if_pos he]
      exact Runs.ok hend
    · rw [if_neg he, if_neg he]
      refine (emitEach_runs h.sink _).bind fun sink hsink => ?_
      have hnext : Reached n argCount m (w ++ escaped (s.headD nul)) { q with sink := sink } :=
        ⟨hsink, h.ai, h.scratch⟩
      rw [expand, arity, ← List.append_assoc]
      exact formatLoop_runs hnext hcount
  by_cases hpct : c = code '%'
  · rw [hpct]
    rcases hbehind : behindWidth s with - | ⟨letter, s'⟩
    · rw [formatLoop_end hbehind, parse_end hbehind]
      exact Runs.ok hend
    · have hlen := length_behindWidth hbehind
      rw [formatLoop_directive hbehind, parse_directive hbehind, directiveItem]
      by_cases hletter : letter = code '%'
      · rw [if_pos hletter, directive, if_pos hletter, expand, arity]
        refine Runs.bind (Runs.bind (emitCh_runs h.sink (code '%')) fun sink hsink =>
          Runs.ok (show Reached n argCount m (w ++ [code '%']) { q with sink := sink } from
            ⟨hsink, h.ai, h.scratch⟩)) fun q' hq' => ?_
        rw [← List.singleton_append, ← List.append_assoc]
        exact formatLoop_runs hq' hcount
      · rw [if_neg hletter]
        refine (directive_runs h hcount _ _ _ hletter).bind fun q' hq' => ?_
        rw [expand_directive, arity, List.tail_drop, ← List.append_assoc, ← Nat.add_assoc, Nat.add_right_comm]
        exact formatLoop_runs hq' hcount
  · rw [formatLoop, parse, if_neg hnul, if_neg hnul, if_neg hesc, if_neg hesc, if_neg hpct, if_neg hpct]
    refine (emitCh_runs h.sink c).bind fun sink hsink => ?_
    have hnext : Reached n argCount m (w ++ [c]) { q with sink := sink } := ⟨hsink, h.ai, h.scratch⟩
    rw [expand, arity, ← List.singleton_append, ← List.append_assoc]
    exact formatLoop_runs hnext hcount
termination_by s.length
decreasing_by
  · rw [List.length_tail, List.length_cons]
    omega
  · rw [List.length_cons]
    omega
  · rw [List.length_cons]
    omega
  · simp

end loop

/-! ## What is behind the text -/

section cut
variable {s t fl ds : List Code}

/-- The characters before the first NUL. -/
def cut (s : List Code) : List Code := s.takeWhile (· ≠ nul)

theorem cut_append (hs : nul ∉ s) (t : List Code) : cut (s ++ t) = s ++ cut t :=
  List.takeWhile_append_of_pos fun c hc => by simpa using fun hnul : c = nul => hs (hnul ▸ hc)

theorem stops_cut {f : Code → Bool} (h : Stops f (ds ++ t)) : Stops f (ds ++ cut t) := by
  rcases ds with - | ⟨c, ds⟩
  · rcases t with - | ⟨c, t⟩
    · exact h
    · rw [List.nil_append, cut, List.takeWhile_cons]
      split_ifs
      · exact stops_cons.2 (stops_cons.1 h)
      · simp [Stops]
  · exact stops_cons.2 (stops_cons.1 h)

/-- The flags and the digits are those before the letter. -/
theorem behindWidth_append (hfl : ∀ c ∈ fl, isFlag c) (hds : ∀ c ∈ ds, isDigit c)
    (hflag : Stops isFlag (ds ++ t)) (hdigit : Stops isDigit t) (letter : Code) :
    behindWidth (fl ++ (ds ++ t)) = t ∧ directiveItem (fl ++ (ds ++ t)) letter =
      if letter = code '%' then .percent
      else .directive (fl.contains (code '-')) (fl.contains (code '0')) ds letter := by
  rw [behindWidth, directiveItem, takeWhile_append hfl hflag, dropWhile_append hfl hflag,
    takeWhile_append hds hdigit, dropWhile_append hds hdigit]
  exact ⟨rfl, rfl⟩

/-- What is behind the first NUL is read only if the NUL is the letter of a directive, and then there is a
directive more. -/
theorem parse_cut (s : List Code) :
    parse (cut s) = parse s ∧ (∀ left zero ds, .directive left zero ds nul ∉ parse s) ∨
      arity (parse (cut s)) < arity (parse s) ∧ ∃ left zero ds, .directive left zero ds nul ∈ parse s := by
  have hnone : ∀ {s : List Code}, parse s = [] → ∀ left zero ds, Item.directive left zero ds nul ∉ parse s :=
    fun h left zero ds => by
      rw [h]
      exact List.not_mem_nil
  rcases s with - | ⟨c, s⟩
  · exact .inl ⟨rfl, hnone (by rw [parse])⟩
  by_cases hnul : c = nul
  · have hcut : cut (c :: s) = [] := by rw [cut, List.takeWhile_cons_of_neg (by simpa using hnul)]
    have hparse : parse (c :: s) = [] := by rw [parse, if_pos hnul]
    refine .inl ⟨?_, hnone hparse⟩
    rw [hcut, hparse, parse]
  have hcut : cut (c :: s) = c :: cut s := by rw [cut, List.takeWhile_cons_of_pos (by simpa using hnul), cut]
  rw [hcut]
  by_cases hesc : c = code '\\'
  · have hparse : ∀ s, parse (c :: s) =
        if s.headD nul = nul then [] else .escape (s.headD nul) :: parse s.tail := fun s => by
      rw [parse, if_neg hnul, if_pos hesc]
    rcases s with - | ⟨e, s⟩
    · exact .inl ⟨rfl, hnone (by rw [hparse]; rfl)⟩
    by_cases he : e = nul
    · refine .inl ⟨?_, hnone (by rw [hparse, List.headD_cons, if_pos he])⟩
      have hcut : cut (e :: s) = [] := by rw [cut, List.takeWhile_cons_of_neg (by simpa using he)]
      rw [hcut, hparse, hparse, List.headD_cons, if_pos he]
      rfl
    · have hcut : cut (e :: s) = e :: cut s := by rw [cut, List.takeWhile_cons_of_pos (by simpa using he), cut]
      rw [hcut, hparse, hparse, List.headD_cons, List.headD_cons, if_neg he, if_neg he]
      simpa only [List.tail_cons, List.cons.injEq, true_and, arity, List.mem_cons, reduceCtorEq, false_or] using
        parse_cut s
  by_cases hpct : c = code '%'
  · rw [hpct]
    have hfl : ∀ c ∈ s.takeWhile isFlag, isFlag c := fun _ hc => List.mem_takeWhile_imp hc
    have hds : ∀ c ∈ (s.dropWhile isFlag).takeWhile isDigit, isDigit c := fun _ hc => List.mem_takeWhile_imp hc
    have hflag := stops_dropWhile isFlag s
    have hdigit := stops_dropWhile isDigit (s.dropWhile isFlag)
    have hs : s = s.takeWhile isFlag ++ ((s.dropWhile isFlag).takeWhile isDigit ++ behindWidth s) := by
      rw [behindWidth, List.takeWhile_append_dropWhile, List.takeWhile_append_dropWhile]
    rw [← List.takeWhile_append_dropWhile (p := isDigit) (l := s.dropWhile isFlag)] at hflag
    change Stops isFlag (_ ++ behindWidth s) at hflag
    change Stops isDigit (behindWidth s) at hdigit
    generalize s.takeWhile isFlag = fl at hs hfl
    generalize (s.dropWhile isFlag).takeWhile isDigit = ds at hs hds hflag
    have hfree : nul ∉ fl ∧ nul ∉ ds :=
      ⟨fun h => absurd (hfl nul h) (by decide), fun h => absurd (hds nul h) (by decide)⟩
    generalize ht : behindWidth s = t at hs hflag hdigit
    have hcuts : cut s = fl ++ (ds ++ cut t) := by rw [hs, cut_append hfree.1, cut_append hfree.2]
    have hfull := fun letter => behindWidth_append hfl hds hflag hdigit letter
    have hdigit' : Stops isDigit ([] ++ cut t) := stops_cut hdigit
    have hpart := fun letter => behindWidth_append hfl hds (stops_cut hflag) hdigit' letter
    rw [← hs] at hfull
    rw [← hcuts] at hpart
    rcases t with - | ⟨letter, s'⟩
    · rw [parse_end ht, parse_end (hpart nul).1]
      exact .inl ⟨rfl, fun _ _ _ => List.not_mem_nil⟩
    · have hlen := length_behindWidth ht
      rw [parse_directive ht, (hfull letter).2]
      by_cases hletter : letter = nul
      · have hend : cut (letter :: s') = [] := by rw [cut, List.takeWhile_cons_of_neg (by simpa using hletter)]
        rw [hend] at hpart
        rw [parse_end (hpart nul).1, hletter, if_neg (by decide)]
        exact .inr ⟨Nat.succ_pos _, _, _, _, List.mem_cons_self ..⟩
      · have hgo : cut (letter :: s') = letter :: cut s' := by
          rw [cut, List.takeWhile_cons_of_pos (by simpa using hletter), cut]
        rw [hgo] at hpart
        rw [parse_directive (hpart letter).1, (hpart letter).2]
        have hrec := parse_cut s'
        have hne : ∀ left zero ds', Item.directive left zero ds' nul ≠ (if letter = code '%' then .percent else
            .directive (fl.contains (code '-')) (fl.contains (code '0')) ds letter) := by
          intro left zero ds' h
          split_ifs at h
          exact hletter (Item.directive.inj h).2.2.2.symm
        have harity : ∀ is, arity ((if letter = code '%' then Item.percent else
            .directive (fl.contains (code '-')) (fl.contains (code '0')) ds letter) :: is) =
            arity is + if letter = code '%' then 0 else 1 := fun is => by
          split_ifs <;> rfl
        rw [harity, harity]
        simpa only [List.cons.injEq, true_and, List.mem_cons, hne, false_or, Nat.add_lt_add_iff_right] using hrec
  · have hparse : ∀ s, parse (c :: s) = .char c :: parse s := fun s => by
      rw [parse, if_neg hnul, if_neg hesc, if_neg hpct]
    rw [hparse, hparse]
    simpa only [List.cons.injEq, true_and, arity, List.mem_cons, reduceCtorEq, false_or] using parse_cut s
termination_by s.length

end cut

/-! ## Formats -/

/-- In the format each directive has a letter before the NUL, and the width that its digits stand for. -/
def Regular (fmt : Chars) : Prop :=
  ∀ left zero ds letter, .directive left zero ds letter ∈ parse fmt.cells →
    letter ≠ nul ∧ wrapped ds = capped ds

section format
variable {W W' : List Code → Nat} {is : List Item} {allowed : Fault → Prop}

theorem expand_congr (h : ∀ left zero ds letter, .directive left zero ds letter ∈ is → W ds = W' ds)
    (args : List FormatArg) : expand W is args = expand W' is args := by
  induction is generalizing args with
  | nil => rw [expand, expand]
  | cons x is ih =>
    have hrec := ih fun left zero ds letter hmem => h left zero ds letter (List.mem_cons_of_mem _ hmem)
    cases x with
    | char c => rw [expand, expand, hrec]
    | escape c => rw [expand, expand, hrec]
    | percent => rw [expand, expand, hrec]
    | directive left zero ds letter =>
      rw [expand_directive, expand_directive, hrec, h left zero ds letter (List.mem_cons_self ..)]

theorem length_field (left zero : Bool) (width : Nat) (t : List Code) :
    (field left zero width t).length = max width t.length := by
  have hsign := (signOf_le_text t).length_le
  rw [field]
  dsimp only
  rw [← signOf]
  split_ifs
  · rw [List.length_append, List.length_replicate]
    omega
  · rw [List.length_append, List.length_append, List.length_replicate, List.length_drop]
    omega
  · rw [List.length_append, List.length_replicate]
    omega

/-- An argument with short texts. -/
def zeroArg : FormatArg := ⟨0, none⟩

theorem length_argText_zero (letter : Code) : (argText letter zeroArg).length ≤ 5 := by
  rw [argText, zeroArg]
  split_ifs <;> decide +kernel

/-- Widths that are smaller make an expansion that is not longer, and as long only if no field is narrower. -/
theorem length_expand_zero (hW : ∀ ds, W ds = W' ds ∨ W ds < W' ds ∧ 5 < W' ds) (is : List Item) :
    (expand W is (List.replicate (arity is) zeroArg)).length ≤
        (expand W' is (List.replicate (arity is) zeroArg)).length ∧
      ((expand W is (List.replicate (arity is) zeroArg)).length =
        (expand W' is (List.replicate (arity is) zeroArg)).length →
          ∀ left zero ds letter, .directive left zero ds letter ∈ is → W ds = W' ds) := by
  induction is with
  | nil =>
    rw [expand, expand]
    exact ⟨le_rfl, fun _ _ _ _ _ hmem => absurd hmem List.not_mem_nil⟩
  | cons x is ih =>
    cases x with
    | char c => simpa [expand, arity] using ih
    | escape c => simpa [expand, arity] using ih
    | percent => simpa [expand, arity] using ih
    | directive left zero ds letter =>
      have htext := length_argText_zero letter
      obtain ⟨hle, heq⟩ := ih
      rw [arity, List.replicate_succ, expand, expand, List.length_append, List.length_append, length_field,
        length_field]
      have hmax : max (W ds) (argText letter zeroArg).length ≤ max (W' ds) (argText letter zeroArg).length ∧
          (max (W ds) (argText letter zeroArg).length = max (W' ds) (argText letter zeroArg).length →
            W ds = W' ds) := by
        rcases hW ds with h | h <;> constructor <;> omega
      refine ⟨Nat.add_le_add hmax.1 hle, fun hsum left' zero' ds' letter' hmem => ?_⟩
      rcases List.mem_cons.1 hmem with h | h
      · rw [(Item.directive.inj h).2.2.1]
        exact hmax.2 (by omega)
      · exact heq (by omega) _ _ _ _ h

theorem length_expand_le (hW : ∀ ds, W ds ≤ 256) (is : List Item) :
    (expand W is (List.replicate (arity is) zeroArg)).length ≤ 256 * is.length := by
  induction is with
  | nil => exact Nat.zero_le _
  | cons x is ih =>
    rw [List.length_cons]
    cases x with
    | char c =>
      rw [expand, arity, List.length_cons]
      omega
    | escape c =>
      have hesc : (escaped c).length ≤ 2 := by
        rw [escaped]
        split_ifs <;> simp
      rw [expand, arity, List.length_append]
      omega
    | percent =>
      rw [expand, arity, List.length_cons]
      omega
    | directive left zero ds letter =>
      have htext := length_argText_zero letter
      have hwidth := hW ds
      rw [arity, List.replicate_succ, expand, List.length_append, length_field]
      omega

theorem length_parse_le (s : List Code) : (parse s).length ≤ s.length := by
  rcases s with - | ⟨c, s⟩
  · rw [parse]
    exact Nat.zero_le _
  by_cases hnul : c = nul
  · rw [parse, if_pos hnul]
    exact Nat.zero_le _
  by_cases hesc : c = code '\\'
  · have hrec := length_parse_le s.tail
    rw [List.length_tail] at hrec
    rw [parse, if_neg hnul, if_pos hesc]
    split_ifs
    · exact Nat.zero_le _
    · rw [List.length_cons, List.length_cons]
      omega
  by_cases hpct : c = code '%'
  · rw [hpct]
    rcases hbehind : behindWidth s with - | ⟨letter, s'⟩
    · rw [parse_end hbehind]
      exact Nat.zero_le _
    · have hlen := length_behindWidth hbehind
      have hrec := length_parse_le s'
      rw [parse_directive hbehind, List.length_cons, List.length_cons]
      omega
  · have hrec := length_parse_le s
    rw [parse, if_neg hnul, if_neg hesc, if_neg hpct, List.length_cons, List.length_cons]
    omega
termination_by s.length
decreasing_by
  · rw [List.length_tail, List.length_cons]
    omega
  · rw [List.length_cons]
    omega
  · simp

/-- What `Format` does, with the items that it finds in the array. -/
theorem format_runs (fmt dest : Chars) {args : List FormatArg} {argCount : Nat} {scratch : Chars}
    (hcount : argCount ≤ args.length) (hs : scratch.size = 80) :
    Runs allowed (format fmt dest args argCount scratch) fun r => r.2.size = dest.size ∧
      (expand wrapped (parse fmt.cells) (args.take argCount)).take (dest.size - 1) ++ [nul] <+: r.2.cells ∧
      (r.1 = true ↔ (expand wrapped (parse fmt.cells) (args.take argCount)).length < dest.size ∧
        arity (parse fmt.cells) ≤ argCount) := by
  have hpos := dest.size_pos
  have hstart : Reached dest.size argCount 0 [] ⟨⟨dest, 0, true⟩, 0, scratch⟩ := by
    refine ⟨?_, (Nat.zero_min _).symm, hs⟩
    rw [decide_eq_true (Nat.zero_le argCount)]
    exact ⟨rfl, (Nat.zero_min _).symm, rfl, fun j hj => absurd hj (Nat.not_lt_zero j)⟩
  rw [format]
  refine (formatLoop_runs hstart hcount).bind fun q hq => ?_
  have hsink := hq.sink
  rw [Nat.zero_add, List.nil_append, List.drop_zero] at hsink
  have hlt : q.sink.pos < dest.size := by
    rw [hsink.pos]
    omega
  rw [if_pos hlt]
  refine (hsink.terminate hlt).bind fun out ⟨hpre, hsize⟩ => Runs.ok ⟨hsize, hpre, ?_⟩
  rw [hsink.ok, Bool.and_eq_true, decide_eq_true_eq, decide_eq_true_eq]
  omega

theorem Regular.exact {fmt : Chars} (h : Regular fmt) : FormatExact fmt := by
  intro dest args argCount scratch hcount hs
  obtain ⟨⟨ok, dest'⟩, hrun, hsize, hpre, hok⟩ := (format_runs fmt dest hcount hs).succeeds
  have hparse : parse fmt.text = parse fmt.cells := by
    rcases parse_cut fmt.cells with ⟨heq, -⟩ | ⟨-, left, zero, ds, hmem⟩
    · exact heq
    · exact absurd rfl (h left zero ds nul hmem).1
  rw [expand_congr fun left zero ds letter hmem => (h left zero ds letter hmem).2, ← hparse] at hpre hok
  exact ⟨ok, dest', hrun, hsize, hpre, hok⟩

/-- The width is the right one, or it is too small for the field. -/
theorem wrapped_or (ds : List Code) : wrapped ds = capped ds ∨ wrapped ds < capped ds ∧ 5 < capped ds := by
  rw [wrapped, capped, maxWidth]
  rcases Nat.lt_or_ge (digitsValue ds) (2 ^ 64) with h | h
  · rw [wrap_of_lt h]
    exact .inl rfl
  · omega

/-- A call with arguments that have short texts and a destination of `n + 1` characters. -/
theorem FormatExact.zero {fmt : Chars} (h : FormatExact fmt) (m : Nat) {n : Nat} (hn : n + 1 < 2 ^ 63) :
    ((expand capped (parse fmt.text) (List.replicate m zeroArg)).length ≤ n ∧ arity (parse fmt.text) ≤ m ↔
      (expand wrapped (parse fmt.cells) (List.replicate m zeroArg)).length ≤ n ∧
        arity (parse fmt.cells) ≤ m) := by
  have hcells : ∀ k, (List.replicate (k + 1) nul).length = k + 1 := fun k => List.length_replicate
  let dest : Chars := ⟨List.replicate (n + 1) nul, by simp, by rw [hcells]; exact hn⟩
  let scratch : Chars := ⟨List.replicate 80 nul, by simp, by simp⟩
  have hsize : dest.size = n + 1 := hcells n
  have hcount : m ≤ (List.replicate m zeroArg).length := List.length_replicate.ge
  obtain ⟨ok, dest', hrun, -, -, hspec⟩ := h dest (List.replicate m zeroArg) m scratch hcount (hcells 79)
  obtain ⟨r, hrun', -, -, hcode⟩ := (format_runs fmt dest hcount (show scratch.size = 80 from hcells 79)).succeeds
  obtain rfl : r = (ok, dest') := Except.ok.inj (hrun'.symm.trans hrun)
  rw [List.take_of_length_le (by rw [List.length_replicate]), hsize, Nat.lt_succ_iff] at hspec hcode
  exact hspec.symm.trans hcode

/-- What goes wrong are formats with a directive that a NUL cuts off, or with a width that wraps around to a
smaller one; shorter ones than `2 ^ 54` characters have a destination for their expansion. -/
theorem formatExact_iff (fmt : Chars) :
    (Regular fmt → FormatExact fmt) ∧ (fmt.size < 2 ^ 54 → FormatExact fmt → Regular fmt) := by
  refine ⟨Regular.exact, fun hsmall h => ?_⟩
  have hitems := length_parse_le fmt.text
  have htext := fmt.length_le
  rw [length_eq] at htext
  have hspec := length_expand_le (W := capped) (fun ds => Nat.min_le_right _ _) (parse fmt.text)
  rcases parse_cut fmt.cells with ⟨hparse, hnone⟩ | ⟨harity, -⟩
  · -- the code computes an expansion that is not longer, so the two lengths are the same
    rw [show cut fmt.cells = fmt.text from rfl] at hparse
    obtain ⟨hle, heq⟩ := length_expand_zero wrapped_or (parse fmt.text)
    have hshort := (h.zero (arity (parse fmt.text))
      (n := (expand wrapped (parse fmt.text) (List.replicate (arity (parse fmt.text)) zeroArg)).length)
      (by omega)).2 ⟨by rw [hparse], by rw [hparse]⟩
    have hwidths := heq (Nat.le_antisymm hle hshort.1)
    rw [hparse] at hwidths
    refine fun left zero ds letter hmem => ⟨?_, hwidths left zero ds letter hmem⟩
    rintro rfl
    exact hnone left zero ds hmem
  · -- one argument is missing
    have hfull := (h.zero (arity (parse fmt.text)) (n := 256 * (parse fmt.text).length) (by omega)).1
      ⟨hspec, le_rfl⟩
    exact absurd hfull.2 (Nat.not_le.2 harity)

/-- The text of the format is `%`; the `Z` behind its NUL is written. -/
theorem format_percent :
    format ⟨[code '%', nul, code 'Z'], by decide, by decide⟩ ⟨[nul, nul], by decide, by decide⟩ [zeroArg] 1
        ⟨List.replicate 80 nul, by decide, by decide⟩ =
      .ok (true, ⟨[code 'Z', nul], by decide, by decide⟩) ∧
    ¬ FormatExact ⟨[code '%', nul, code 'Z'], by decide, by decide⟩ := by
  refine ⟨by decide +kernel, fun h => ?_⟩
  have hzero := (h.zero 0 (n := 0) (by decide)).1 (by decide +kernel)
  exact absurd hzero.2 (by decide +kernel)

end format

end NewM2.Winrt.FormatString
