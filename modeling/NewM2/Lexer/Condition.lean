import Mathlib
import NewM2.Lexer.Preprocess

/-!
# Conditions

`Cond` is what a condition says, and `Derives` the grammar of conditions in the form in which the
evaluator documents it: an expression is what stands between a text and what is left behind it. The
recursive descent gives the truth of what the grammar derives (`derives_parse`), and accepts nothing
else (`derives_of_parse`).
-/

namespace NewM2.Lexer
open ExprParser

/-! ## What a condition says -/

inductive Value
  | name (n : Bytes)
  | text (t : Bytes)

inductive Cond
  | truth (v : Value)
  | eq (l r : Value)
  | ne (l r : Value)
  | not (c : Cond)
  | and (c d : Cond)
  | or (c d : Cond)

/-- The text that a comparison sees: of a name its value, or the name where it has none. -/
def Value.textIn (env : Env) : Value → Bytes
  | .name n => (env.lookupValue n).getD n
  | .text t => t

def Value.truthIn (env : Env) : Value → Bool
  | .name n => env.lookup n
  | .text t => truthyValue t

def Cond.eval (env : Env) : Cond → Bool
  | .truth v => v.truthIn env
  | .eq l r => decide (l.textIn env = r.textIn env)
  | .ne l r => decide (l.textIn env ≠ r.textIn env)
  | .not c => !c.eval env
  | .and c d => c.eval env && d.eval env
  | .or c d => c.eval env || d.eval env

/-! ## The grammar -/

/-- `src` begins with the value `v`, and `rest` is behind it. -/
inductive ValueText (src : Bytes) : Value → Bytes → Prop
  | name {c : UInt8} {cs : Bytes} (hsrc : skipWs src = c :: cs) (hc : isAsciiAlphabetic c || c = 95) :
      ValueText src (.name ((c :: cs).takeWhile isWordByte)) ((c :: cs).dropWhile isWordByte)
  | number {c : UInt8} {cs : Bytes} (hsrc : skipWs src = c :: cs) (hc : isAsciiDigit c) :
      ValueText src (.text ((c :: cs).takeWhile isWordByte)) ((c :: cs).dropWhile isWordByte)
  | string {d : UInt8} {body rest : Bytes} (hsrc : skipWs src = d :: (body ++ d :: rest))
      (hd : d = quote ∨ d = doubleQuote) (hbody : d ∉ body) : ValueText src (.text body) rest

/-- `comparison := value [ ('=' | '#') value ]`. -/
inductive Comparison (src : Bytes) : Cond → Bytes → Prop
  | eq {l r : Value} {mid mid' rest : Bytes} (hl : ValueText src l mid)
      (hop : matches? (ascii "=") (skipWs mid) = some mid') (hr : ValueText mid' r rest) :
      Comparison src (.eq l r) rest
  | ne {l r : Value} {mid mid' rest : Bytes} (hl : ValueText src l mid)
      (hno : matches? (ascii "=") (skipWs mid) = none)
      (hop : matches? (ascii "#") (skipWs mid) = some mid') (hr : ValueText mid' r rest) :
      Comparison src (.ne l r) rest
  | truth {v : Value} {mid : Bytes} (hv : ValueText src v mid)
      (hno : matches? (ascii "=") (skipWs mid) = none) (hno' : matches? (ascii "#") (skipWs mid) = none) :
      Comparison src (.truth v) (skipWs mid)

/-- The levels of the grammar; behind its first operand a sequence has the rest of it. -/
inductive Level
  | or | orRest (left : Cond) | and | andRest (left : Cond) | unary | primary

/-- `src` begins with the expression `c` of a level, and `rest` is behind it. -/
inductive Derives : Level → Bytes → Cond → Bytes → Prop
  | or {src mid rest : Bytes} {c d : Cond} :
      Derives .and src c mid → Derives (.orRest c) mid d rest → Derives .or src d rest
  | orEnd {src : Bytes} {c : Cond} (hno : matches? (ascii "||") (skipWs src) = none) :
      Derives (.orRest c) src c (skipWs src)
  | orMore {src mid mid' rest : Bytes} {c d e : Cond} (hop : matches? (ascii "||") (skipWs src) = some mid) :
      Derives .and mid d mid' → Derives (.orRest (.or c d)) mid' e rest → Derives (.orRest c) src e rest
  | and {src mid rest : Bytes} {c d : Cond} :
      Derives .unary src c mid → Derives (.andRest c) mid d rest → Derives .and src d rest
  | andEnd {src : Bytes} {c : Cond} (hno : matches? (ascii "&&") (skipWs src) = none) :
      Derives (.andRest c) src c (skipWs src)
  | andMore {src mid mid' rest : Bytes} {c d e : Cond} (hop : matches? (ascii "&&") (skipWs src) = some mid) :
      Derives .unary mid d mid' → Derives (.andRest (.and c d)) mid' e rest → Derives (.andRest c) src e rest
  | not {src mid rest : Bytes} {c : Cond} (hop : matches? (ascii "!") (skipWs src) = some mid) :
      Derives .unary mid c rest → Derives .unary src (.not c) rest
  | primary {src rest : Bytes} {c : Cond} (hno : matches? (ascii "!") (skipWs src) = none) :
      Derives .primary (skipWs src) c rest → Derives .unary src c rest
  | paren {src mid rest : Bytes} {c : Cond} (hclose : skipWs mid = rparen :: rest) :
      Derives .or src c mid → Derives .primary (lparen :: src) c rest
  | comparison {src rest : Bytes} {c : Cond} (hopen : src.head? ≠ some lparen)
      (h : Comparison src c rest) : Derives .primary src c rest

/-- `src` is the condition `c`. -/
def IsCondition (src : Bytes) (c : Cond) : Prop := ∃ rest, Derives .or src c rest ∧ skipWs rest = []

/-! ## Values and comparisons -/

/-- The value as the evaluator has it. -/
def Value.expr : Value → ExprValue
  | .name n => .ident n
  | .text t => .text t

theorem Value.asCompareText_expr (env : Env) (v : Value) : v.expr.asCompareText env = v.textIn env := by
  cases v <;> rfl

theorem parseStringValue_eq {d : UInt8} {body rest : Bytes} (hbody : d ∉ body) :
    parseStringValue d (body ++ d :: rest) = .ok (.text body, rest) := by
  have hpos : ∀ c ∈ body, (c != d) = true := fun c hc => bne_iff_ne.2 (ne_of_mem_of_not_mem hc hbody)
  rw [parseStringValue, List.dropWhile_append_of_pos hpos, List.takeWhile_append_of_pos hpos,
    List.dropWhile_cons_of_neg (by simp), List.takeWhile_cons_of_neg (by simp), List.append_nil]

theorem not_isAsciiAlphabetic_of_isAsciiDigit :
    ∀ c : UInt8, isAsciiDigit c → ¬ (isAsciiAlphabetic c || c = 95) = true := by
  decide +kernel

theorem parseValue_of_text {src rest : Bytes} {v : Value} (h : ValueText src v rest) :
    parseValue src = .ok (v.expr, rest) := by
  cases h with
  | name hsrc hc =>
    rw [parseValue, hsrc]
    simp only [if_pos hc]
    rfl
  | @number c cs hsrc hc =>
    rw [parseValue, hsrc]
    simp only [if_neg (not_isAsciiAlphabetic_of_isAsciiDigit c hc), if_pos hc]
    rfl
  | @string d body rest hsrc hd hbody =>
    have hne : ¬ (isAsciiAlphabetic d || decide (d = 95)) = true := by
      rcases hd with rfl | rfl <;> decide
    have hdigit : ¬ isAsciiDigit d = true := by
      rcases hd with rfl | rfl <;> decide
    have hquote : (decide (d = quote) || decide (d = doubleQuote)) = true := by
      rcases hd with rfl | rfl <;> decide
    rw [parseValue, hsrc]
    simp only [if_neg hne, if_neg hdigit, if_pos hquote]
    exact parseStringValue_eq hbody

theorem text_of_parseValue {src rest : Bytes} {x : ExprValue} (h : parseValue src = .ok (x, rest)) :
    ∃ v : Value, x = v.expr ∧ ValueText src v rest := by
  rw [parseValue] at h
  rcases hsrc : skipWs src with - | ⟨c, cs⟩
  · rw [hsrc] at h
    cases h
  rw [hsrc] at h
  simp only at h
  split_ifs at h with hname hnumber hstring
  · cases h
    exact ⟨.name _, rfl, .name hsrc hname⟩
  · cases h
    exact ⟨.text _, rfl, .number hsrc hnumber⟩
  · rw [parseStringValue] at h
    rcases hdrop : cs.dropWhile (· != c) with - | ⟨d, rest'⟩
    · rw [hdrop] at h
      cases h
    · rw [hdrop] at h
      cases h
      obtain rfl : d = c := by
        have hd := List.head_dropWhile_not (· != c) (l := cs) (by simp [hdrop])
        simpa [hdrop] using hd
      have hcs : cs = cs.takeWhile (· != d) ++ d :: rest := by
        rw [← hdrop, List.takeWhile_append_dropWhile]
      refine ⟨.text (cs.takeWhile (· != d)), rfl, .string (by rw [hsrc, ← hcs]) ?_ ?_⟩
      · simpa using hstring
      · exact fun hmem => by simpa using List.mem_takeWhile_imp hmem

theorem parseComparison_of_text {src rest : Bytes} {c : Cond} (h : Comparison src c rest) (env : Env) :
    ∃ x, parseComparison env src = .ok (x, rest) ∧ x.asBool = c.eval env := by
  cases h with
  | @eq l r mid mid' rest hl hop hr =>
    refine ⟨.bool (l.textIn env = r.textIn env), ?_, rfl⟩
    simp only [parseComparison, parseValue_of_text hl, bind, Except.bind, hop, parseValue_of_text hr,
      Value.asCompareText_expr]
    rfl
  | @ne l r mid mid' rest hl hno hop hr =>
    refine ⟨.bool (l.textIn env ≠ r.textIn env), ?_, rfl⟩
    simp only [parseComparison, parseValue_of_text hl, bind, Except.bind, hno, hop, parseValue_of_text hr,
      Value.asCompareText_expr]
    rfl
  | @truth v mid hv hno hno' =>
    simp only [parseComparison, parseValue_of_text hv, bind, Except.bind, hno, hno']
    cases v with
    | name n => exact ⟨_, rfl, rfl⟩
    | text t => exact ⟨_, rfl, rfl⟩

theorem text_of_parseComparison {env : Env} {src rest : Bytes} {x : ExprValue}
    (h : parseComparison env src = .ok (x, rest)) :
    ∃ c, Comparison src c rest ∧ c.eval env = x.asBool := by
  simp only [parseComparison, bind, Except.bind] at h
  cases hl : parseValue src with
  | error e => rw [hl] at h; cases h
  | ok l =>
    obtain ⟨l, mid⟩ := l
    rw [hl] at h
    obtain ⟨l, rfl, hleft⟩ := text_of_parseValue hl
    simp only at h
    cases hop : matches? (ascii "=") (skipWs mid) with
    | some mid' =>
      rw [hop] at h
      simp only at h
      cases hr : parseValue mid' with
      | error e => rw [hr] at h; cases h
      | ok r =>
        obtain ⟨r, rest'⟩ := r
        rw [hr] at h
        obtain ⟨r, rfl, hright⟩ := text_of_parseValue hr
        cases h
        refine ⟨.eq l r, .eq hleft hop hright, ?_⟩
        simp only [Value.asCompareText_expr]
        rfl
    | none =>
      rw [hop] at h
      simp only at h
      cases hop' : matches? (ascii "#") (skipWs mid) with
      | some mid' =>
        rw [hop'] at h
        simp only at h
        cases hr : parseValue mid' with
        | error e => rw [hr] at h; cases h
        | ok r =>
          obtain ⟨r, rest'⟩ := r
          rw [hr] at h
          obtain ⟨r, rfl, hright⟩ := text_of_parseValue hr
          cases h
          refine ⟨.ne l r, .ne hleft hop hop' hright, ?_⟩
          simp only [Value.asCompareText_expr]
          rfl
      | none =>
        rw [hop'] at h
        cases l with
        | name n =>
          cases h
          exact ⟨.truth (.name n), .truth hleft hop hop', rfl⟩
        | text t =>
          cases h
          exact ⟨.truth (.text t), .truth hleft hop hop', rfl⟩

/-! ## The recursive descent -/

/-- The function of a level, with what it has of a sequence. -/
def parse (env : Env) (fuel : Nat) : Level → Bytes → Except String (Bool × Bytes)
  | .or, src => parseOr env fuel src
  | .orRest left, src => parseOrRest env fuel (left.eval env) src
  | .and, src => parseAnd env fuel src
  | .andRest left, src => parseAndRest env fuel (left.eval env) src
  | .unary, src => parseUnary env fuel src
  | .primary, src => parsePrimary env fuel src

/-- How many calls a level may take beyond four for each byte. -/
def Level.calls : Level → Nat
  | .or => 4
  | .and => 3
  | .unary => 2
  | .orRest _ | .andRest _ | .primary => 1

theorem skipWs_length (src : Bytes) : (skipWs src).length ≤ src.length :=
  (List.dropWhile_suffix _).length_le

theorem matches?_eq {s src rest : Bytes} (h : matches? s src = some rest) : src = s ++ rest := by
  unfold matches? at h
  split_ifs at h with hprefix
  obtain ⟨t, rfl⟩ := List.isPrefixOf_iff_prefix.1 hprefix
  rw [List.drop_left] at h
  rw [Option.some.inj h]

theorem ValueText.length_le {src rest : Bytes} {v : Value} (h : ValueText src v rest) :
    rest.length ≤ src.length := by
  have hws := skipWs_length src
  cases h with
  | @name c cs hsrc hc =>
    rw [hsrc] at hws
    exact Nat.le_trans (List.dropWhile_suffix _).length_le hws
  | @number c cs hsrc hc =>
    rw [hsrc] at hws
    exact Nat.le_trans (List.dropWhile_suffix _).length_le hws
  | @string d body rest hsrc hd hbody =>
    rw [hsrc] at hws
    simp only [List.length_cons, List.length_append] at hws
    omega

theorem matches?_length {s src rest : Bytes} (h : matches? s (skipWs src) = some rest) :
    s.length + rest.length ≤ src.length := by
  have hws := skipWs_length src
  rwa [matches?_eq h, List.length_append] at hws

theorem Comparison.length_le {src rest : Bytes} {c : Cond} (h : Comparison src c rest) :
    rest.length ≤ src.length := by
  cases h with
  | eq hl hop hr =>
    have h₁ := hl.length_le
    have h₂ := matches?_length hop
    have h₃ := hr.length_le
    omega
  | ne hl hno hop hr =>
    have h₁ := hl.length_le
    have h₂ := matches?_length hop
    have h₃ := hr.length_le
    omega
  | truth hv hno hno' => exact Nat.le_trans (skipWs_length _) hv.length_le

theorem Derives.length_le {level : Level} {src rest : Bytes} {c : Cond} (h : Derives level src c rest) :
    rest.length ≤ src.length := by
  induction h with
  | or _ _ ih ih' => exact Nat.le_trans ih' ih
  | orEnd hno => exact skipWs_length _
  | orMore hop _ _ ih ih' =>
    have := matches?_length hop
    omega
  | and _ _ ih ih' => exact Nat.le_trans ih' ih
  | andEnd hno => exact skipWs_length _
  | andMore hop _ _ ih ih' =>
    have := matches?_length hop
    omega
  | not hop _ ih =>
    have := matches?_length hop
    omega
  | primary hno _ ih => exact Nat.le_trans ih (skipWs_length _)
  | @paren src mid rest c hclose _ ih =>
    have hws := skipWs_length mid
    rw [hclose, List.length_cons] at hws
    rw [List.length_cons]
    omega
  | comparison hopen h => exact h.length_le

/-- The descent gives the truth of what the grammar derives. -/
theorem derives_parse {level : Level} {src rest : Bytes} {c : Cond} (h : Derives level src c rest) (env : Env)
    {fuel : Nat} (hfuel : 4 * src.length + level.calls ≤ fuel) :
    parse env fuel level src = .ok (c.eval env, rest) := by
  induction h generalizing fuel with
  | @or src mid rest c d hand hrest ih ih' =>
    obtain ⟨fuel, rfl⟩ : ∃ n, fuel = n + 1 := ⟨fuel - 1, by simp only [Level.calls] at hfuel; omega⟩
    have hlen := hand.length_le
    simp only [Level.calls] at hfuel ih ih'
    have h₁ : parseAnd env fuel src = _ := ih (by omega)
    have h₂ : parseOrRest env fuel (c.eval env) mid = _ := ih' (by omega)
    simp only [parse, parseOr, h₁, h₂, bind, Except.bind]
  | @orEnd src c hno =>
    obtain ⟨fuel, rfl⟩ : ∃ n, fuel = n + 1 := ⟨fuel - 1, by simp only [Level.calls] at hfuel; omega⟩
    simp only [parse, parseOrRest, hno]
  | @orMore src mid mid' rest c d e hop hand hrest ih ih' =>
    obtain ⟨fuel, rfl⟩ : ∃ n, fuel = n + 1 := ⟨fuel - 1, by simp only [Level.calls] at hfuel; omega⟩
    have hlen := matches?_length hop
    have hlen' := hand.length_le
    rw [show (ascii "||").length = 2 from rfl] at hlen
    simp only [Level.calls] at hfuel ih ih'
    have h₁ : parseAnd env fuel mid = _ := ih (by omega)
    have h₂ : parseOrRest env fuel (c.eval env || d.eval env) mid' = _ := ih' (by omega)
    simp only [parse, parseOrRest, hop, h₁, h₂, bind, Except.bind]
  | @and src mid rest c d hunary hrest ih ih' =>
    obtain ⟨fuel, rfl⟩ : ∃ n, fuel = n + 1 := ⟨fuel - 1, by simp only [Level.calls] at hfuel; omega⟩
    have hlen := hunary.length_le
    simp only [Level.calls] at hfuel ih ih'
    have h₁ : parseUnary env fuel src = _ := ih (by omega)
    have h₂ : parseAndRest env fuel (c.eval env) mid = _ := ih' (by omega)
    simp only [parse, parseAnd, h₁, h₂, bind, Except.bind]
  | @andEnd src c hno =>
    obtain ⟨fuel, rfl⟩ : ∃ n, fuel = n + 1 := ⟨fuel - 1, by simp only [Level.calls] at hfuel; omega⟩
    simp only [parse, parseAndRest, hno]
  | @andMore src mid mid' rest c d e hop hunary hrest ih ih' =>
    obtain ⟨fuel, rfl⟩ : ∃ n, fuel = n + 1 := ⟨fuel - 1, by simp only [Level.calls] at hfuel; omega⟩
    have hlen := matches?_length hop
    have hlen' := hunary.length_le
    rw [show (ascii "&&").length = 2 from rfl] at hlen
    simp only [Level.calls] at hfuel ih ih'
    have h₁ : parseUnary env fuel mid = _ := ih (by omega)
    have h₂ : parseAndRest env fuel (c.eval env && d.eval env) mid' = _ := ih' (by omega)
    simp only [parse, parseAndRest, hop, h₁, h₂, bind, Except.bind]
  | @not src mid rest c hop hunary ih =>
    obtain ⟨fuel, rfl⟩ : ∃ n, fuel = n + 1 := ⟨fuel - 1, by simp only [Level.calls] at hfuel; omega⟩
    have hlen := matches?_length hop
    rw [show (ascii "!").length = 1 from rfl] at hlen
    simp only [Level.calls] at hfuel ih
    have h₁ : parseUnary env fuel mid = _ := ih (by omega)
    simp only [parse, parseUnary, hop, h₁, bind, Except.bind]
    rfl
  | @primary src rest c hno hprimary ih =>
    obtain ⟨fuel, rfl⟩ : ∃ n, fuel = n + 1 := ⟨fuel - 1, by simp only [Level.calls] at hfuel; omega⟩
    have hlen := skipWs_length src
    simp only [Level.calls] at hfuel ih
    have h₁ : parsePrimary env fuel (skipWs src) = _ := ih (by omega)
    simp only [parse, parseUnary, hno, h₁]
  | @paren src mid rest c hclose hor ih =>
    obtain ⟨fuel, rfl⟩ : ∃ n, fuel = n + 1 := ⟨fuel - 1, by simp only [Level.calls] at hfuel; omega⟩
    simp only [Level.calls, List.length_cons] at hfuel ih
    have h₁ : parseOr env fuel src = _ := ih (by omega)
    simp only [parse, parsePrimary, if_true, h₁, bind, Except.bind, hclose]
    rfl
  | @comparison src rest c hopen hcomparison =>
    obtain ⟨fuel, rfl⟩ : ∃ n, fuel = n + 1 := ⟨fuel - 1, by simp only [Level.calls] at hfuel; omega⟩
    obtain ⟨x, hx, hbool⟩ := parseComparison_of_text hcomparison env
    rcases src with - | ⟨c', cs⟩
    · cases hx
    · have hne : ¬ c' = lparen := fun h => hopen (congrArg some h)
      simp only [parse, parsePrimary, if_neg hne, hx, bind, Except.bind, hbool]
      rfl

/-- The descent accepts what the grammar derives and nothing else. -/
theorem derives_of_parse {env : Env} {fuel : Nat} {level : Level} {src rest : Bytes} {v : Bool}
    (h : parse env fuel level src = .ok (v, rest)) : ∃ c, Derives level src c rest ∧ c.eval env = v := by
  induction fuel generalizing level src rest v with
  | zero => cases level <;> cases h
  | succ fuel ih =>
    cases level with
    | or =>
      obtain ⟨⟨v₁, mid⟩, h₁, h⟩ := bind_eq_ok h
      have h₁ : parse env fuel .and src = .ok (v₁, mid) := h₁
      obtain ⟨c, hc, rfl⟩ := ih h₁
      have h : parse env fuel (.orRest c) mid = .ok (v, rest) := h
      obtain ⟨d, hd, rfl⟩ := ih h
      exact ⟨d, .or hc hd, rfl⟩
    | orRest left =>
      rw [parse, parseOrRest] at h
      cases hop : matches? (ascii "||") (skipWs src) with
      | none =>
        rw [hop] at h
        cases h
        exact ⟨left, .orEnd hop, rfl⟩
      | some mid =>
        rw [hop] at h
        obtain ⟨⟨v₁, mid'⟩, h₁, h⟩ := bind_eq_ok h
        have h₁ : parse env fuel .and mid = .ok (v₁, mid') := h₁
        obtain ⟨d, hd, rfl⟩ := ih h₁
        have h : parse env fuel (.orRest (.or left d)) mid' = .ok (v, rest) := h
        obtain ⟨e, he, rfl⟩ := ih h
        exact ⟨e, .orMore hop hd he, rfl⟩
    | and =>
      obtain ⟨⟨v₁, mid⟩, h₁, h⟩ := bind_eq_ok h
      have h₁ : parse env fuel .unary src = .ok (v₁, mid) := h₁
      obtain ⟨c, hc, rfl⟩ := ih h₁
      have h : parse env fuel (.andRest c) mid = .ok (v, rest) := h
      obtain ⟨d, hd, rfl⟩ := ih h
      exact ⟨d, .and hc hd, rfl⟩
    | andRest left =>
      rw [parse, parseAndRest] at h
      cases hop : matches? (ascii "&&") (skipWs src) with
      | none =>
        rw [hop] at h
        cases h
        exact ⟨left, .andEnd hop, rfl⟩
      | some mid =>
        rw [hop] at h
        obtain ⟨⟨v₁, mid'⟩, h₁, h⟩ := bind_eq_ok h
        have h₁ : parse env fuel .unary mid = .ok (v₁, mid') := h₁
        obtain ⟨d, hd, rfl⟩ := ih h₁
        have h : parse env fuel (.andRest (.and left d)) mid' = .ok (v, rest) := h
        obtain ⟨e, he, rfl⟩ := ih h
        exact ⟨e, .andMore hop hd he, rfl⟩
    | unary =>
      rw [parse, parseUnary] at h
      cases hop : matches? (ascii "!") (skipWs src) with
      | none =>
        rw [hop] at h
        have h : parse env fuel .primary (skipWs src) = .ok (v, rest) := h
        obtain ⟨c, hc, rfl⟩ := ih h
        exact ⟨c, .primary hop hc, rfl⟩
      | some mid =>
        rw [hop] at h
        obtain ⟨⟨v₁, mid'⟩, h₁, h⟩ := bind_eq_ok h
        have h₁ : parse env fuel .unary mid = .ok (v₁, mid') := h₁
        obtain ⟨c, hc, rfl⟩ := ih h₁
        cases h
        exact ⟨.not c, .not hop hc, rfl⟩
    | primary =>
      rcases src with - | ⟨c, cs⟩
      · cases h
      rw [parse, parsePrimary] at h
      split_ifs at h with hopen
      · subst hopen
        obtain ⟨⟨v₁, mid⟩, h₁, h⟩ := bind_eq_ok h
        have h₁ : parse env fuel .or cs = .ok (v₁, mid) := h₁
        obtain ⟨d, hd, rfl⟩ := ih h₁
        rcases hmid : skipWs mid with - | ⟨c', rest'⟩
        · simp only [hmid] at h
          cases h
        · simp only [hmid] at h
          split_ifs at h with hclose
          · subst hclose
            cases h
            exact ⟨d, .paren hmid hd, rfl⟩
      · obtain ⟨⟨x, mid⟩, hx, h⟩ := bind_eq_ok h
        cases h
        obtain ⟨d, hd, hbool⟩ := text_of_parseComparison hx
        exact ⟨d, .comparison (fun h => hopen (Option.some.inj h)) hd, hbool⟩

/-- The value of a condition is that of what its text says. -/
theorem evalExpr_eq_ok {env : Env} {src : Bytes} {v : Bool} :
    evalExpr env src = .ok v ↔ ∃ c, IsCondition src c ∧ c.eval env = v := by
  constructor
  · intro h
    obtain ⟨⟨v₁, rest⟩, h₁, h⟩ := bind_eq_ok h
    simp only at h
    split_ifs at h with hend
    cases h
    have h₁ : parse env (4 * (src.length + 2)) .or src = .ok (v, rest) := h₁
    obtain ⟨c, hc, hv⟩ := derives_of_parse h₁
    exact ⟨c, ⟨rest, hc, hend⟩, hv⟩
  · rintro ⟨c, ⟨rest, hc, hend⟩, rfl⟩
    have hfuel : 4 * src.length + Level.or.calls ≤ 4 * (src.length + 2) := by
      simp only [Level.calls]
      omega
    have h₁ : parseOr env (4 * (src.length + 2)) src = .ok (c.eval env, rest) := derives_parse hc env hfuel
    simp only [evalExpr, h₁, bind, Except.bind, if_pos hend]
    rfl

end NewM2.Lexer
