import Mathlib
import NewM2.Sema.Constant

/-!
# Where constant folding stops the compiler (`newm2-sema/src/constant.rs`)

Most of the integer operations of `evalWith` are checked. The ones that are not are the division in
`/`, DIV and MOD, whose quotient may not fit i128, and ABS; a set constructor may outgrow its vector.
`Stops` says that an expression meets one of these with its own operands, `Visits` which operands
are evaluated, each only after the ones before it gave what is asked of them. Folding overflows
exactly when it reaches an expression that stops (`evalConst_overflow_iff`).
-/

namespace NewM2.Sema
open Syntax

namespace I128

@[simp] theorem exact_overflow {n : Int} : exact n = .error .overflow ↔ fits n = false := by
  unfold exact
  cases fits n <;> simp

end I128

/-! ## Reached, and stopped at -/

/-- The value of `e` has the ordinal `n`. -/
def HasOrdinal (env : EvalEnv) (e : Expr) (n : Int) : Prop :=
  ∃ v, evalWith env e = .ok v ∧ v.asInt = some n

/-- The arguments of the callee `f` that are evaluated. -/
def CallVisits (env : EvalEnv) (f : String) (args : List Expr) (a : Expr) : Prop :=
  match unaryBuiltin f with
  | some _ => args = [a]
  | none =>
    if f = "CMPLX" then
      ∃ x y, args = [x, y] ∧
        (a = x ∨ a = y ∧ ∃ v re, evalWith env x = .ok v ∧ v.realVal = .ok re)
    else if isTypeBuiltin f || f = "OFFS" then False
    else if f = "VAL" then ∃ t, args = [t, a]
    else if f = "CAST" then a ∈ castOperand args
    else args = [a] ∧ (env.conversion f).isSome

def ElementVisits (env : EvalEnv) (a : Expr) : SetElem → Prop
  | .single e => a = e
  | .range lo hi => a = lo ∨ a = hi ∧ ∃ n, HasOrdinal env lo n

/-- `a` is evaluated directly on the way to the value of an expression. -/
def Visits (env : EvalEnv) (a : Expr) : Expr → Prop
  | .call (.designator [f] []) args => CallVisits env f args a
  | .call (.designator [_, f] []) args => f.toUpper = "CAST" ∧ a ∈ castOperand args
  | .binary _ lhs rhs => a = lhs ∨ a = rhs ∧ ∃ v, evalWith env lhs = .ok v
  | .unary _ e => a = e
  | .set _ elements =>
    ∃ before elem after members, elements = before ++ elem :: after ∧
      evalElements env [] before = .ok members ∧ ElementVisits env a elem
  | _ => False

/-- The quotient of the operands is needed, and does not fit. -/
def QuotientOverflows (op : BinaryOp) (lv rv : ConstValue) : Prop :=
  match op with
  | .div => ∃ a b, lv = .int a ∧ rv = .int b ∧ I128.fits (a.tdiv b) = false
  | .divKw | .mod => ∃ a b, lv.asInt = some a ∧ rv.asInt = some b ∧ I128.fits (a.tdiv b) = false
  | _ => False

/-- The operation at the root of an expression stops the compiler, its operands having values. -/
def Stops (env : EvalEnv) : Expr → Prop
  | .call (.designator [f] []) args =>
    f = "ABS" ∧ ∃ x n, args = [x] ∧ evalWith env x = .ok (.int n) ∧ I128.fits n.natAbs = false
  | .binary op lhs rhs =>
    ∃ lv rv, evalWith env lhs = .ok lv ∧ evalWith env rhs = .ok rv ∧ QuotientOverflows op lv rv
  | .set _ elements =>
    ∃ before elem after members more, elements = before ++ elem :: after ∧
      evalElements env [] before = .ok members ∧ evalElement env elem = .ok more ∧
      ConstSet.capacity < (more.foldl ConstSet.insert members).length
  | _ => False

/-! ## One operation -/

section
variable {α β : Type} {x : Eval α} {lv rv v : ConstValue} {a b : Int}

theorem bind_overflow {f : α → Eval β} :
    x >>= f = .error .overflow ↔ x = .error .overflow ∨ ∃ u, x = .ok u ∧ f u = .error .overflow := by
  rcases x with err | u
  · refine ⟨fun h => .inl (by cases h; rfl), ?_⟩
    rintro (h | ⟨u, h, -⟩)
    · cases h
      rfl
    · cases h
  · refine ⟨fun h => .inr ⟨u, rfl, h⟩, ?_⟩
    rintro (h | ⟨w, h, hw⟩)
    · cases h
    · cases h
      exact hw

theorem map_overflow {f : α → β} : f <$> x = .error .overflow ↔ x = .error .overflow := by
  rcases x with err | u
  · exact ⟨fun h => by cases h; rfl, fun h => by cases h; rfl⟩
  · exact ⟨(fun h => nomatch h), fun h => nomatch h⟩

@[simp] theorem fail_ne_overflow {message : String} : (fail message : Eval α) ≠ .error .overflow :=
  fun h => nomatch h

namespace ConstValue

@[simp] theorem intVal_ne_overflow : v.intVal ≠ .error .overflow := by
  unfold intVal
  split <;> exact fun h => nomatch h

theorem intVal_eq_ok : v.intVal = .ok a ↔ v.asInt = some a := by
  unfold intVal
  rcases v.asInt with - | n
  · exact ⟨(fun h => nomatch h), fun h => nomatch h⟩
  · exact ⟨fun h => by cases h; rfl, fun h => by cases h; rfl⟩

@[simp] theorem realVal_ne_overflow : v.realVal ≠ .error .overflow := by
  cases v <;> exact fun h => nomatch h

@[simp] theorem boolVal_ne_overflow : v.boolVal ≠ .error .overflow := by
  cases v <;> exact fun h => nomatch h

@[simp] theorem cmp_ne_overflow : lv.cmp rv ≠ .error .overflow := by
  unfold cmp
  split <;> exact fun h => nomatch h

end ConstValue

theorem arithOp_ne_overflow {f : Int → Int → Option Int} {g : Float → Float → Float} :
    arithOp lv rv f g ≠ .error .overflow := by
  unfold arithOp
  split
  · split <;> exact fun h => nomatch h
  all_goals exact fun h => nomatch h

theorem intOp_overflow {op : Int → Int → Eval ConstValue} :
    intOp lv rv op = .error .overflow ↔
      ∃ a b, lv.asInt = some a ∧ rv.asInt = some b ∧ op a b = .error .overflow := by
  simp only [intOp, bind_overflow, ConstValue.intVal_ne_overflow, false_or, ConstValue.intVal_eq_ok]
  exact ⟨fun ⟨a, ha, b, hb, h⟩ => ⟨a, b, ha, hb, h⟩, fun ⟨a, b, ha, hb, h⟩ => ⟨a, ha, b, hb, h⟩⟩

/-- A quotient by zero is not formed. -/
theorem nonZero_overflow {r : Eval Int} (hr : r = .error .overflow ↔ I128.fits (a.tdiv b) = false) :
    nonZero b (.int <$> r) = .error .overflow ↔ I128.fits (a.tdiv b) = false := by
  unfold nonZero
  split_ifs with hb
  · subst hb
    rw [Int.tdiv_zero]
    exact ⟨(fun h => nomatch h), fun h => nomatch h⟩
  · rw [map_overflow, hr]

theorem m2Div_overflow : m2Div a b = .error .overflow ↔ I128.fits (a.tdiv b) = false := by
  rw [m2Div, bind_overflow, I128.exact_overflow]
  exact ⟨fun h => h.elim id fun ⟨_, _, h⟩ => (nomatch h), .inl⟩

theorem m2Mod_overflow : m2Mod a b = .error .overflow ↔ I128.fits (a.tdiv b) = false := by
  rw [m2Mod, bind_overflow, I128.exact_overflow]
  exact ⟨fun h => h.elim id fun ⟨_, _, h⟩ => (nomatch h), .inl⟩

theorem evalBinary_overflow {op : BinaryOp} :
    evalBinary op lv rv = .error .overflow ↔ QuotientOverflows op lv rv := by
  have never : ∀ {r : Eval ConstValue}, r ≠ .error .overflow → (r = .error .overflow ↔ False) :=
    fun h => ⟨h, False.elim⟩
  cases op with
  | add =>
    refine never ?_
    simp only [evalBinary]
    split
    case h_6 => exact arithOp_ne_overflow
    all_goals exact fun h => nomatch h
  | sub | mul =>
    refine never ?_
    simp only [evalBinary]
    split
    · exact fun h => nomatch h
    · exact arithOp_ne_overflow
  | div =>
    simp only [evalBinary, QuotientOverflows]
    split
    · refine ⟨fun h => ?_, fun ⟨_, _, h, _⟩ => nomatch h⟩
      split_ifs at h
      cases h
    · rename_i m n
      rw [nonZero_overflow I128.exact_overflow]
      refine ⟨fun h => ⟨m, n, rfl, rfl, h⟩, ?_⟩
      rintro ⟨m, n, h, h', hfits⟩
      cases h
      cases h'
      exact hfits
    · exact ⟨(fun h => nomatch h), fun ⟨_, _, h, _⟩ => nomatch h⟩
    · rename_i hint _
      exact ⟨(fun h => nomatch h), fun ⟨m, n, h, h', _⟩ => (hint m n h h').elim⟩
  | divKw =>
    simp only [evalBinary, intOp_overflow, QuotientOverflows, nonZero_overflow m2Div_overflow]
  | mod =>
    simp only [evalBinary, intOp_overflow, QuotientOverflows, nonZero_overflow m2Mod_overflow]
  | rem =>
    refine never fun h => ?_
    obtain ⟨m, n, -, -, h⟩ := intOp_overflow.1 h
    unfold nonZero at h
    split_ifs at h
    cases h
  | bor | band | bxor | shl | shr =>
    refine never fun h => ?_
    obtain ⟨m, n, -, -, h⟩ := intOp_overflow.1 h
    cases h
  | eq | ne => exact never fun h => nomatch h
  | lt | le | gt | ge =>
    refine never fun h => ?_
    rcases bind_overflow.1 h with h | ⟨o, -, h⟩
    · exact ConstValue.cmp_ne_overflow h
    · cases h
  | and | or =>
    refine never fun h => ?_
    simp only [evalBinary, bind_overflow, ConstValue.boolVal_ne_overflow, false_or] at h
    obtain ⟨x, -, y, -, h⟩ := h
    cases h
  | isIn =>
    refine never fun h => ?_
    rcases bind_overflow.1 h with h | ⟨n, -, h⟩
    · exact ConstValue.intVal_ne_overflow h
    · split at h <;> cases h

theorem evalUnary_ne_overflow {op : UnaryOp} : evalUnary op v ≠ .error .overflow := by
  intro h
  unfold evalUnary at h
  split at h
  case h_4 => split at h <;> cases h
  all_goals cases h

theorem capChar_ne_overflow : capChar v ≠ .error .overflow := by
  intro h
  unfold capChar at h
  split at h
  · cases h
  · split at h <;> cases h
  · rcases bind_overflow.1 h with h | ⟨n, -, h⟩
    · exact ConstValue.intVal_ne_overflow h
    · split at h <;> cases h

/-- Of the builtins of one argument only ABS overflows. -/
theorem unaryBuiltin_overflow {f : String} {b : UnaryBuiltin} (hb : unaryBuiltin f = some b) :
    b.fold v = .error .overflow ↔ f = "ABS" ∧ ∃ n, v = .int n ∧ I128.fits n.natAbs = false := by
  by_cases hf : f = "ABS"
  · subst hf
    obtain rfl : ⟨"ABS requires one argument", foldAbs⟩ = b := Option.some_injective _ hb
    cases v with
    | int n =>
      show (ConstValue.int <$> I128.exact n.natAbs) = _ ↔ _
      rw [map_overflow, I128.exact_overflow]
      refine ⟨fun h => ⟨rfl, n, rfl, h⟩, ?_⟩
      rintro ⟨-, m, hm, h⟩
      cases hm
      exact h
    | _ => exact ⟨(fun h => nomatch h), fun ⟨_, _, h, _⟩ => nomatch h⟩
  · refine ⟨fun h => ?_, fun h => absurd h.1 hf⟩
    unfold unaryBuiltin at hb
    split at hb <;> cases hb
    case h_1 =>
      rcases bind_overflow.1 h with h | ⟨n, -, h⟩
      · exact absurd h ConstValue.intVal_ne_overflow
      · split at h <;> cases h
    case h_2 =>
      simp only [foldOrd] at h
      split at h <;> cases h
    case h_3 => exact absurd rfl hf
    case h_5 =>
      rcases bind_overflow.1 h with h | ⟨c, -, h⟩
      · exact absurd h capChar_ne_overflow
      · cases h
    case h_6 =>
      simp only [foldLength] at h
      split at h <;> cases h
    case h_7 =>
      simp only [foldRe] at h
      split at h <;> cases h
    case h_8 =>
      simp only [foldIm] at h
      split at h <;> cases h
    all_goals
      rcases bind_overflow.1 h with h | ⟨n, -, h⟩
      · exact absurd h ConstValue.intVal_ne_overflow
      · cases h

theorem convert_ne_overflow {name : String} {bounds : Option (Int × Int)} :
    convert name bounds v ≠ .error .overflow := by
  intro h
  unfold convert at h
  split at h
  · split_ifs at h
    cases h
  · cases h

end

/-! ## One expression -/

section
variable {env : EvalEnv}

theorem evalElement_overflow {elem : SetElem} :
    evalElement env elem = .error .overflow ↔
      ∃ a, ElementVisits env a elem ∧ evalWith env a = .error .overflow := by
  cases elem with
  | single e =>
    rw [evalElement, bind_overflow]
    constructor
    · rintro (h | ⟨v, -, h⟩)
      · exact ⟨e, rfl, h⟩
      · split at h <;> cases h
    · rintro ⟨a, rfl, h⟩
      exact .inl h
  | range lo hi =>
    rw [evalElement, bind_overflow]
    constructor
    · rintro (h | ⟨v, hv, h⟩)
      · exact ⟨lo, .inl rfl, h⟩
      · split at h
        · cases h
        · rename_i m hm
          rcases bind_overflow.1 h with h | ⟨w, -, h⟩
          · exact ⟨hi, .inr ⟨rfl, m, v, hv, hm⟩, h⟩
          · split at h <;> cases h
    · rintro ⟨a, rfl | ⟨rfl, m, v, hv, hm⟩, h⟩
      · exact .inl h
      · refine .inr ⟨v, hv, ?_⟩
        simp only [hm]
        exact bind_overflow.2 (.inl h)

theorem pushAll_overflow {members more : List Int} :
    ConstSet.pushAll members more = .error .overflow ↔
      ConstSet.capacity < (more.foldl ConstSet.insert members).length := by
  simp only [ConstSet.pushAll]
  split_ifs with h
  · exact ⟨(fun h => nomatch h), fun h' => absurd h (Nat.not_le.2 h')⟩
  · exact ⟨fun _ => Nat.lt_of_not_le h, fun _ => rfl⟩

/-- The first element that cannot be evaluated or does not fit decides. -/
theorem evalElements_overflow {elements : List SetElem} {members : List Int} :
    evalElements env members elements = .error .overflow ↔
      ∃ before elem after ms, elements = before ++ elem :: after ∧
        evalElements env members before = .ok ms ∧
        ((∃ a, ElementVisits env a elem ∧ evalWith env a = .error .overflow) ∨
          ∃ more, evalElement env elem = .ok more ∧
            ConstSet.capacity < (more.foldl ConstSet.insert ms).length) := by
  induction elements generalizing members with
  | nil =>
    constructor
    · intro h
      cases h
    rintro ⟨before, elem, after, ms, h, -⟩
    exact absurd h (List.append_ne_nil_of_right_ne_nil _ (List.cons_ne_nil _ _)).symm
  | cons e rest ih =>
    simp only [evalElements, bind_overflow, evalElement_overflow, pushAll_overflow, ih]
    constructor
    · rintro (h | ⟨more, hmore, h | ⟨all, hall, before, elem, after, ms, rfl, hms, h⟩⟩)
      · exact ⟨[], e, rest, members, rfl, rfl, .inl h⟩
      · exact ⟨[], e, rest, members, rfl, rfl, .inr ⟨more, hmore, h⟩⟩
      · refine ⟨e :: before, elem, after, ms, rfl, ?_, h⟩
        rw [evalElements, hmore]
        show ConstSet.pushAll members more >>= _ = _
        rw [hall]
        exact hms
    · rintro ⟨before, elem, after, ms, heq, hms, h⟩
      rcases before with - | ⟨e', before⟩
      · cases heq
        cases hms
        rcases h with h | ⟨more, hmore, h⟩
        · exact .inl h
        · exact .inr ⟨more, hmore, .inl h⟩
      · cases heq
        rw [evalElements] at hms
        obtain ⟨more, hmore, hms⟩ := bind_ok hms
        obtain ⟨all, hall, hms⟩ := bind_ok hms
        exact .inr ⟨more, hmore, .inr ⟨all, hall, before, elem, after, ms, rfl, hms, h⟩⟩

theorem evalCast_overflow {args : List Expr} :
    evalCast args (args.map (evalWith env)) = .error .overflow ↔
      ∃ a ∈ castOperand args, evalWith env a = .error .overflow := by
  rcases args with - | ⟨t, - | ⟨x, rest⟩⟩
  · exact ⟨(fun h => nomatch h), fun ⟨_, h, _⟩ => nomatch h⟩
  · exact ⟨(fun h => nomatch h), fun ⟨_, h, _⟩ => nomatch h⟩
  · simp only [List.map_cons, evalCast, map_overflow, castOperand, List.drop_one, List.tail_cons,
      List.take_succ_cons, List.take_zero, List.mem_singleton, exists_eq_left]

theorem evalNamedCall_overflow {f : String} {args : List Expr} :
    evalNamedCall env f args (args.map (evalWith env)) = .error .overflow ↔
      (f = "ABS" ∧ ∃ x n, args = [x] ∧ evalWith env x = .ok (.int n) ∧ I128.fits n.natAbs = false) ∨
        ∃ a, CallVisits env f args a ∧ evalWith env a = .error .overflow := by
  unfold evalNamedCall CallVisits
  rcases hb : unaryBuiltin f with - | b
  · have habs : f ≠ "ABS" := by
      rintro rfl
      cases hb
    simp only [habs, false_and, false_or]
    split_ifs with hc ht hv hcast
    · -- CMPLX
      rcases args with - | ⟨x, - | ⟨y, - | ⟨z, rest⟩⟩⟩
      · simp
      · simp
      · simp only [List.map_cons, List.map_nil, bind_overflow, ConstValue.realVal_ne_overflow, false_or]
        constructor
        · rintro (h | ⟨v, hv, re, hre, h | ⟨w, hw, im, him, h⟩⟩)
          · exact ⟨x, ⟨x, y, rfl, .inl rfl⟩, h⟩
          · exact ⟨y, ⟨x, y, rfl, .inr ⟨rfl, v, re, hv, hre⟩⟩, h⟩
          · cases h
        · rintro ⟨a, ⟨x', y', heq, h⟩, ha⟩
          cases heq
          rcases h with rfl | ⟨rfl, v, re, hv, hre⟩
          · exact .inl ha
          · exact .inr ⟨v, hv, re, hre, .inl ha⟩
      · simp
    · exact ⟨(fun h => nomatch h), fun ⟨_, h, _⟩ => h.elim⟩
    · rcases args with - | ⟨t, - | ⟨x, - | ⟨z, rest⟩⟩⟩
      · simp
      · simp
      · simp
      · simp
    · exact evalCast_overflow
    · rcases args with - | ⟨x, - | ⟨y, rest⟩⟩
      · simp
      · rcases hb : env.conversion f with - | bounds
        · simp
        · simp only [List.map_cons, List.map_nil, bind_overflow, convert_ne_overflow]
          simp
      · simp
  · rcases args with - | ⟨x, - | ⟨y, rest⟩⟩
    · simp
    · simp only [List.map_cons, List.map_nil, bind_overflow, unaryBuiltin_overflow hb]
      constructor
      · rintro (h | ⟨v, hv, rfl, n, rfl, h⟩)
        · exact .inr ⟨x, rfl, h⟩
        · exact .inl ⟨rfl, x, n, rfl, hv, h⟩
      · rintro (⟨rfl, x', n, hx, hv, h⟩ | ⟨a, ha, h⟩)
        · cases hx
          exact .inr ⟨_, hv, rfl, n, rfl, h⟩
        · cases ha
          exact .inl h
    · simp

/-- An expression with an operation that overflows, or with such an expression among those it
reaches. -/
theorem evalWith_overflow (hd : ∀ s sel, env.designator s sel ≠ .error .overflow) {e : Expr} :
    evalWith env e = .error .overflow ↔
      Stops env e ∨ ∃ a, Visits env a e ∧ evalWith env a = .error .overflow := by
  cases e with
  | integer | real | char | string | nil =>
    simp only [evalWith, Stops, Visits]
    simp
  | designator s sel => simp [evalWith, Stops, Visits, hd]
  | unary op e =>
    simp [evalWith, Stops, Visits, bind_overflow, evalUnary_ne_overflow]
  | binary op lhs rhs =>
    simp only [evalWith, Stops, Visits, bind_overflow, evalBinary_overflow]
    constructor
    · rintro (h | ⟨lv, hl, h | ⟨rv, hr, h⟩⟩)
      · exact .inr ⟨lhs, .inl rfl, h⟩
      · exact .inr ⟨rhs, .inr ⟨rfl, lv, hl⟩, h⟩
      · exact .inl ⟨lv, rv, hl, hr, h⟩
    · rintro (⟨lv, rv, hl, hr, h⟩ | ⟨a, rfl | ⟨rfl, lv, hl⟩, h⟩)
      · exact .inr ⟨lv, hl, .inr ⟨rv, hr, h⟩⟩
      · exact .inl h
      · exact .inr ⟨lv, hl, .inl h⟩
  | set name elements =>
    simp only [evalWith, Stops, Visits, bind_overflow, evalElements_overflow]
    constructor
    · rintro (⟨before, elem, after, ms, rfl, hms, ⟨a, ha, h⟩ | ⟨more, hmore, h⟩⟩ | ⟨ms, -, h⟩)
      · exact .inr ⟨a, ⟨before, elem, after, ms, rfl, hms, ha⟩, h⟩
      · exact .inl ⟨before, elem, after, ms, more, rfl, hms, hmore, h⟩
      · cases h
    · rintro (⟨before, elem, after, ms, more, rfl, hms, hmore, h⟩ |
        ⟨a, ⟨before, elem, after, ms, rfl, hms, ha⟩, h⟩)
      · exact .inl ⟨before, elem, after, ms, rfl, hms, .inr ⟨more, hmore, h⟩⟩
      · exact .inl ⟨before, elem, after, ms, rfl, hms, .inl ⟨a, ha, h⟩⟩
  | call func args =>
    rw [evalWith, evalArgs_eq]
    unfold evalBuiltinCall
    split
    · exact evalNamedCall_overflow
    · rename_i f
      simp only [Stops, Visits, false_or]
      split_ifs with hf
      · simp only [hf, true_and]
        exact evalCast_overflow
      · simp [hf]
    · rename_i h1 h2
      simp only [fail_ne_overflow, false_iff]
      rintro (h | ⟨a, h, -⟩)
      · unfold Stops at h
        split at h <;> simp_all
      · unfold Visits at h
        split at h <;> simp_all

/-- What is reached is an operand. -/
theorem Visits.mem_operands {a e : Expr} (h : Visits env a e) : a ∈ operands e := by
  unfold Visits at h
  split at h
  · rename_i f args
    show a ∈ callOperands f args
    unfold CallVisits at h
    unfold callOperands
    rcases hb : unaryBuiltin f with - | b
    · simp only [hb] at h
      simp only
      split_ifs at h ⊢ with hc ht hv hlen hcast
      · obtain ⟨x, y, rfl, h⟩ := h
        rcases h with rfl | ⟨rfl, -⟩
        exacts [List.mem_cons_self, List.mem_cons_of_mem _ List.mem_cons_self]
      · obtain ⟨t, rfl⟩ := h
        exact List.mem_cons_self
      · obtain ⟨t, rfl⟩ := h
        exact absurd rfl hlen
      · exact h
      · rw [h.1]
        exact List.mem_cons_self
    · simp only [hb] at h
      rw [h]
      exact List.mem_cons_self
  · rename_i f args
    rw [operands, if_pos h.1]
    exact h.2
  · exact List.mem_pair.2 (h.imp id And.left)
  · exact List.mem_singleton.2 h
  · obtain ⟨before, elem, after, ms, rfl, -, h⟩ := h
    refine List.mem_flatMap.2 ⟨elem, by simp, ?_⟩
    cases elem with
    | single e => exact List.mem_singleton.2 h
    | range lo hi => exact List.mem_pair.2 (h.imp id And.left)
  · exact h.elim

end

/-- Folding an expression stops the compiler exactly when it reaches an operation that does. -/
theorem evalConst_overflow_iff (lookup : ConstLookup) (e : Expr) :
    evalConst lookup e = .error .overflow ↔
      ∃ e', Relation.ReflTransGen (Visits (tableEnv lookup)) e' e ∧ Stops (tableEnv lookup) e' := by
  have hd : ∀ s sel, (tableEnv lookup).designator s sel ≠ .error .overflow := by
    intro s sel h
    simp only [tableEnv, evalDesignator] at h
    split at h <;> cases h
  unfold evalConst
  induction e using operands_induction with
  | step e ih =>
    rw [evalWith_overflow hd]
    constructor
    · rintro (h | ⟨a, ha, h⟩)
      · exact ⟨e, .refl, h⟩
      · obtain ⟨e', he', h⟩ := (ih a ha.mem_operands).1 h
        exact ⟨e', he'.tail ha, h⟩
    · rintro ⟨e', he', h⟩
      rcases he'.cases_tail with rfl | ⟨a, ha', ha⟩
      · exact .inl h
      · exact .inr ⟨a, ha, (ih a ha.mem_operands).2 ⟨e', ha', h⟩⟩

/-- The least i128, as an expression: `1 SHL 63 SHL 63 SHL 1`. -/
def minExpr : Expr :=
  .binary .shl (.binary .shl (.binary .shl (.integer 1) (.integer 63)) (.integer 63)) (.integer 1)

/-- `(1 SHL 63 SHL 63 SHL 1) / (-1)`. -/
theorem evalConst_overflow : evalConst (fun _ => none)
    (.binary .div minExpr (.unary .neg (.integer 1))) = .error .overflow := by
  rfl

end NewM2.Sema
