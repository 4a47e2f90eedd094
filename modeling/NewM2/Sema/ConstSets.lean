import Mathlib
import NewM2.Sema.Constant

/-!
# The algebra of constant sets (`newm2-sema/src/constant.rs`)

`evalWith` keeps the members of a set in strictly ascending order (`ConstValue.Canonical`), so two
set values are the same list just when they have the same members. Over such lists the set operators
are those of finite sets (`union_toFinset` and its kin); a constructor may name a member twice, or a
range the wrong way round.
-/

namespace NewM2.Sema
open Syntax

/-- The members of a set value are strictly ascending. -/
def ConstValue.Canonical : ConstValue → Prop
  | .set members => members.SortedLT
  | _ => True

/-! ## The operations on members -/

namespace ConstSet
variable {a b members more : List Int} {n : Int}

@[simp] theorem mem_sort : n ∈ sort members ↔ n ∈ members := List.mem_mergeSort

theorem sort_sortedLT (h : members.Nodup) : (sort members).SortedLT :=
  List.sortedLE_mergeSort.sortedLT_of_nodup ((List.mergeSort_perm ..).nodup_iff.2 h)

theorem mem_insert {m : Int} : n ∈ insert members m ↔ n ∈ members ∨ n = m := by
  unfold insert
  split_ifs with h
  · rw [List.contains_iff_mem] at h
    exact ⟨.inl, fun hn => hn.elim id fun hn => hn ▸ h⟩
  · rw [List.mem_append, List.mem_singleton]

theorem insert_nodup (h : members.Nodup) (m : Int) : (insert members m).Nodup := by
  unfold insert
  split_ifs with hm
  · exact h
  · rw [List.contains_iff_mem] at hm
    exact List.nodup_append.2 ⟨h, List.nodup_singleton m, by
      rintro x hx y hy rfl
      exact hm (List.mem_singleton.1 hy ▸ hx)⟩

theorem mem_foldl_insert : n ∈ more.foldl insert members ↔ n ∈ members ∨ n ∈ more := by
  induction more generalizing members with
  | nil => simp
  | cons m rest ih => rw [List.foldl_cons, ih, mem_insert, List.mem_cons, or_assoc]

theorem foldl_insert_nodup (h : members.Nodup) : (more.foldl insert members).Nodup := by
  induction more generalizing members with
  | nil => exact h
  | cons m rest ih => exact ih (insert_nodup h m)

theorem pushAll_nodup {all : List Int} (h : members.Nodup) (hall : pushAll members more = .ok all) :
    all.Nodup := by
  simp only [pushAll] at hall
  split_ifs at hall
  cases hall
  exact foldl_insert_nodup h

theorem union_sortedLT (ha : a.SortedLT) : (union a b).SortedLT :=
  sort_sortedLT (foldl_insert_nodup ha.nodup)

theorem diff_sortedLT (ha : a.SortedLT) : (diff a b).SortedLT :=
  sort_sortedLT (ha.nodup.filter _)

theorem inter_sortedLT (ha : a.SortedLT) : (inter a b).SortedLT :=
  sort_sortedLT (ha.nodup.filter _)

/-- Sorted, then freed of repetitions: nothing is asked of the operands. -/
theorem symDiff_sortedLT : (symDiff a b).SortedLT :=
  (List.sortedLE_mergeSort.pairwise.sublist (List.dedup_sublist _)).sortedLE.sortedLT_of_nodup
    (List.nodup_dedup _)

theorem union_toFinset (a b : List Int) : (union a b).toFinset = a.toFinset ∪ b.toFinset := by
  ext n
  simp only [union, List.mem_toFinset, Finset.mem_union, mem_sort, mem_foldl_insert]

theorem diff_toFinset (a b : List Int) : (diff a b).toFinset = a.toFinset \ b.toFinset := by
  ext n
  simp [diff]

theorem inter_toFinset (a b : List Int) : (inter a b).toFinset = a.toFinset ∩ b.toFinset := by
  ext n
  simp [inter]

theorem symDiff_toFinset (a b : List Int) :
    (symDiff a b).toFinset = symmDiff a.toFinset b.toFinset := by
  ext n
  simp [symDiff, Finset.mem_symmDiff]

/-- Strictly ascending lists are equal when they have the same members. -/
theorem eq_iff_toFinset (ha : a.SortedLT) (hb : b.SortedLT) : a = b ↔ a.toFinset = b.toFinset := by
  refine ⟨congrArg _, fun h => ha.eq_of_mem_iff hb fun n => ?_⟩
  rw [← List.mem_toFinset, h, List.mem_toFinset]

end ConstSet

/-! ## Where set values come from -/

section
variable {lv rv v : ConstValue} {u : List Int}

theorem arithOp_ne_set {f : Int → Int → Option Int} {g : Float → Float → Float} :
    arithOp lv rv f g ≠ .ok (.set u) := by
  intro h
  unfold arithOp at h
  split at h
  · split at h <;> cases h
  all_goals cases h

/-- What an operator on integers makes of them, when it makes no set of any. -/
theorem intOp_ne_set {op : Int → Int → Eval ConstValue} (hop : ∀ a b, op a b ≠ .ok (.set u)) :
    intOp lv rv op ≠ .ok (.set u) := by
  intro h
  obtain ⟨a, -, h⟩ := bind_ok h
  obtain ⟨b, -, h⟩ := bind_ok h
  exact hop a b h

theorem nonZero_ne_set {b : Int} {r : Eval Int} : nonZero b (.int <$> r) ≠ .ok (.set u) := by
  unfold nonZero
  split_ifs
  · exact fun h => nomatch h
  · rcases r with err | n
    · exact fun h => nomatch h
    · exact fun h => nomatch h

/-- A set is the outcome of a set operator on two sets. -/
theorem evalBinary_set {op : BinaryOp} (h : evalBinary op lv rv = .ok (.set u)) :
    ∃ a b, lv = .set a ∧ rv = .set b ∧
      (op = .add ∧ u = ConstSet.union a b ∨ op = .sub ∧ u = ConstSet.diff a b ∨
        op = .mul ∧ u = ConstSet.inter a b ∨ op = .div ∧ u = ConstSet.symDiff a b) := by
  cases op with
  | add =>
    simp only [evalBinary] at h
    split at h
    · cases h
      exact ⟨_, _, rfl, rfl, .inl ⟨rfl, rfl⟩⟩
    · cases h
    · cases h
    · cases h
    · cases h
    · exact absurd h arithOp_ne_set
  | sub =>
    simp only [evalBinary] at h
    split at h
    · cases h
      exact ⟨_, _, rfl, rfl, .inr (.inl ⟨rfl, rfl⟩)⟩
    · exact absurd h arithOp_ne_set
  | mul =>
    simp only [evalBinary] at h
    split at h
    · cases h
      exact ⟨_, _, rfl, rfl, .inr (.inr (.inl ⟨rfl, rfl⟩))⟩
    · exact absurd h arithOp_ne_set
  | div =>
    simp only [evalBinary] at h
    split at h
    · split_ifs at h <;> cases h
    · exact absurd h nonZero_ne_set
    · cases h
      exact ⟨_, _, rfl, rfl, .inr (.inr (.inr ⟨rfl, rfl⟩))⟩
    · cases h
  | divKw => exact absurd h (intOp_ne_set fun _ _ => nonZero_ne_set)
  | mod => exact absurd h (intOp_ne_set fun _ _ => nonZero_ne_set)
  | rem => exact absurd h (intOp_ne_set fun _ b => nonZero_ne_set (b := b) (r := .ok _))
  | bor | band | bxor | shl | shr => exact absurd h (intOp_ne_set fun _ _ h => nomatch h)
  | eq | ne => cases h
  | lt | le | gt | ge =>
    obtain ⟨o, -, h⟩ := bind_ok h
    cases h
  | and | or =>
    obtain ⟨x, -, h⟩ := bind_ok h
    obtain ⟨y, -, h⟩ := bind_ok h
    cases h
  | isIn =>
    obtain ⟨n, -, h⟩ := bind_ok h
    split at h <;> cases h

theorem evalUnary_ne_set {op : UnaryOp} : evalUnary op lv ≠ .ok (.set u) := by
  intro h
  unfold evalUnary at h
  split at h
  case h_4 => split at h <;> cases h
  all_goals cases h

theorem unaryBuiltin_ne_set {f : String} {b : UnaryBuiltin} (hb : unaryBuiltin f = some b) :
    b.fold v ≠ .ok (.set u) := by
  intro h
  unfold unaryBuiltin at hb
  split at hb <;> cases hb
  case h_1 =>
    obtain ⟨n, -, h⟩ := bind_ok h
    split at h <;> cases h
  case h_2 =>
    simp only [foldOrd] at h
    split at h <;> cases h
  case h_3 =>
    simp only [foldAbs] at h
    split at h
    · exact nonZero_ne_set (b := 1) h
    all_goals cases h
  case h_6 =>
    simp only [foldLength] at h
    split at h <;> cases h
  case h_7 =>
    simp only [foldRe] at h
    split at h <;> cases h
  case h_8 =>
    simp only [foldIm] at h
    split at h <;> cases h
  all_goals
    obtain ⟨w, -, h⟩ := bind_ok h
    cases h

theorem reinterpretCast_canonical {t : Expr} (h : v.Canonical) : (reinterpretCast t v).Canonical := by
  unfold reinterpretCast
  split
  · split_ifs <;> trivial
  · split_ifs <;> trivial
  · exact h

theorem convert_canonical {name : String} {bounds : Option (Int × Int)} (h : v.Canonical)
    {w : ConstValue} (hw : convert name bounds v = .ok w) : w.Canonical := by
  unfold convert at hw
  split at hw
  · split_ifs at hw
    · cases hw
    · cases hw
      exact h
  · cases hw
    exact h

end

section
variable {env : EvalEnv} {v : ConstValue}

theorem evalCast_canonical {args : List Expr} (h : evalCast args (args.map (evalWith env)) = .ok v)
    (hargs : ∀ a ∈ castOperand args, ∀ w, evalWith env a = .ok w → w.Canonical) : v.Canonical := by
  rcases args with - | ⟨t, - | ⟨x, rest⟩⟩
  · cases h
  · cases h
  · rcases hx : evalWith env x with err | w
    · simp [evalCast, hx] at h
    · simp only [List.map_cons, evalCast, hx] at h
      cases h
      exact reinterpretCast_canonical (hargs x (by simp [castOperand]) w hx)

/-- A call passes on the value of an argument or of the environment, or makes a value that is no
set. -/
theorem evalNamedCall_canonical (ht : ∀ f args, (env.typed f args).Canonical) {f : String}
    {args : List Expr} (h : evalNamedCall env f args (args.map (evalWith env)) = .ok v)
    (hargs : ∀ a ∈ callOperands f args, ∀ w, evalWith env a = .ok w → w.Canonical) : v.Canonical := by
  unfold evalNamedCall at h
  unfold callOperands at hargs
  split at h
  · rename_i b hb
    split at h
    · obtain ⟨x, -, h⟩ := bind_ok h
      cases v with
      | set u => exact absurd h (unaryBuiltin_ne_set hb)
      | _ => trivial
    · cases h
  · rename_i hnone
    simp only [hnone] at hargs
    split_ifs at h hargs with hc htb hv hlen hcast
    · split at h
      · obtain ⟨x, -, h⟩ := bind_ok h
        obtain ⟨re, -, h⟩ := bind_ok h
        obtain ⟨y, -, h⟩ := bind_ok h
        obtain ⟨im, -, h⟩ := bind_ok h
        cases h
        trivial
      · cases h
    · cases h
      exact ht f args
    · obtain ⟨t, x, rfl⟩ := List.length_eq_two.1 hlen
      exact hargs x (by simp [castOperand]) v h
    · split at h
      · rename_i heq
        exact absurd (by simpa using congrArg List.length heq) hlen
      · cases h
        trivial
    · exact evalCast_canonical h hargs
    · rcases args with - | ⟨x, - | ⟨y, rest⟩⟩
      · cases h
      · rcases hb : env.conversion f with - | bounds
        · simp [hb, fail] at h
        · simp only [List.map_cons, List.map_nil, hb] at h
          obtain ⟨w, hw, h⟩ := bind_ok h
          exact convert_canonical (hargs x (List.mem_singleton.2 rfl) w hw) h
      · cases h

theorem evalElements_nodup {elements : List SetElem} {members ms : List Int} (h : members.Nodup)
    (hms : evalElements env members elements = .ok ms) : ms.Nodup := by
  induction elements generalizing members with
  | nil =>
    cases hms
    exact h
  | cons elem rest ih =>
    rw [evalElements] at hms
    obtain ⟨more, -, hms⟩ := bind_ok hms
    obtain ⟨all, hall, hms⟩ := bind_ok hms
    exact ih (ConstSet.pushAll_nodup h hall) hms

theorem evalBinary_canonical {op : BinaryOp} {lv rv : ConstValue} (hl : lv.Canonical)
    (h : evalBinary op lv rv = .ok v) : v.Canonical := by
  cases v with
  | set u =>
    obtain ⟨a, b, rfl, rfl, ⟨-, rfl⟩ | ⟨-, rfl⟩ | ⟨-, rfl⟩ | ⟨-, rfl⟩⟩ := evalBinary_set h
    exacts [ConstSet.union_sortedLT hl, ConstSet.diff_sortedLT hl, ConstSet.inter_sortedLT hl,
      ConstSet.symDiff_sortedLT]
  | _ => trivial

/-- In an environment of canonical values every expression has a canonical value. -/
theorem evalWith_canonical (hd : ∀ s sel w, env.designator s sel = .ok w → w.Canonical)
    (ht : ∀ f args, (env.typed f args).Canonical) {e : Expr} (h : evalWith env e = .ok v) :
    v.Canonical := by
  induction e using operands_induction generalizing v with
  | step e ih =>
    cases e with
    | integer | real | char | string | nil =>
      rw [evalWith] at h
      cases h
      trivial
    | designator s sel => exact hd s sel v (by rwa [evalWith] at h)
    | binary op lhs rhs =>
      rw [evalWith] at h
      obtain ⟨lv, hl, h⟩ := bind_ok h
      obtain ⟨rv, -, h⟩ := bind_ok h
      exact evalBinary_canonical (ih lhs (List.mem_pair.2 (.inl rfl)) hl) h
    | unary op e =>
      rw [evalWith] at h
      obtain ⟨w, -, h⟩ := bind_ok h
      cases v with
      | set u => exact absurd h evalUnary_ne_set
      | _ => trivial
    | set name elements =>
      rw [evalWith] at h
      obtain ⟨ms, hms, h⟩ := bind_ok h
      cases h
      exact ConstSet.sort_sortedLT (evalElements_nodup List.nodup_nil hms)
    | call func args =>
      rw [evalWith, evalArgs_eq] at h
      unfold evalBuiltinCall at h
      split at h
      · exact evalNamedCall_canonical ht h fun a ha w => ih a ha
      · rename_i f
        split_ifs at h with hf
        · exact evalCast_canonical h fun a ha w => ih a (by rwa [operands, if_pos hf])
        · cases h
      · cases h

end

/-! ## The table -/

section
variable {lookup : ConstLookup}

theorem evalDesignator_canonical (hlookup : ∀ key v, lookup key = some v → v.Canonical)
    {s : List String} {sel : List Selector} {v : ConstValue}
    (h : evalDesignator lookup s sel = .ok v) : v.Canonical := by
  simp only [evalDesignator] at h
  split at h
  · rename_i w hw
    cases h
    rcases Option.or_eq_some_iff.1 hw with hw | ⟨-, hw⟩
    · exact hlookup _ _ hw
    · unfold predefined at hw
      split at hw <;> cases hw <;> trivial
  · cases h

theorem typedValue_canonical (hlookup : ∀ key v, lookup key = some v → v.Canonical) (f : String)
    (args : List Expr) : (typedValue lookup f args).Canonical := by
  unfold typedValue
  split
  · rename_i arg _
    rcases hw : (typeBuiltinKey f arg).bind lookup with - | w
    · trivial
    · obtain ⟨key, -, hkey⟩ := Option.bind_eq_some_iff.1 hw
      rw [Option.getD_some]
      exact hlookup key w hkey
  · trivial

theorem evalConst_canonical (hlookup : ∀ key v, lookup key = some v → v.Canonical) {e : Expr}
    {v : ConstValue} (h : evalConst lookup e = .ok v) : v.Canonical :=
  evalWith_canonical (fun _ _ _ => evalDesignator_canonical hlookup) (typedValue_canonical hlookup) h

theorem evalConst_binary {op : BinaryOp} {x y : Expr} {lv rv : ConstValue}
    (hx : evalConst lookup x = .ok lv) (hy : evalConst lookup y = .ok rv) :
    evalConst lookup (.binary op x y) = evalBinary op lv rv := by
  unfold evalConst at *
  rw [evalWith, hx, hy]
  rfl

/-- Over a table of strictly ascending sets every set is strictly ascending, and the operators on
sets are those of finite sets. -/
theorem evalConst_sets (hlookup : ∀ key v, lookup key = some v → v.Canonical) :
    (∀ e u, evalConst lookup e = .ok (.set u) → u.SortedLT) ∧
    ∀ x y a b, evalConst lookup x = .ok (.set a) → evalConst lookup y = .ok (.set b) →
      (∃ u, evalConst lookup (.binary .add x y) = .ok (.set u) ∧
        u.toFinset = a.toFinset ∪ b.toFinset) ∧
      (∃ u, evalConst lookup (.binary .sub x y) = .ok (.set u) ∧
        u.toFinset = a.toFinset \ b.toFinset) ∧
      (∃ u, evalConst lookup (.binary .mul x y) = .ok (.set u) ∧
        u.toFinset = a.toFinset ∩ b.toFinset) ∧
      (∃ u, evalConst lookup (.binary .div x y) = .ok (.set u) ∧
        u.toFinset = symmDiff a.toFinset b.toFinset) ∧
      (∀ z v n, evalConst lookup z = .ok v → v.asInt = some n →
        evalConst lookup (.binary .isIn z y) = .ok (.bool (decide (n ∈ b.toFinset)))) ∧
      evalConst lookup (.binary .eq x y) = .ok (.bool (decide (a.toFinset = b.toFinset))) ∧
      evalConst lookup (.binary .ne x y) = .ok (.bool (decide (a.toFinset ≠ b.toFinset))) := by
  refine ⟨fun e u h => evalConst_canonical hlookup h, fun x y a b hx hy => ?_⟩
  have heq : (a == b) = decide (a.toFinset = b.toFinset) := by
    rw [Bool.eq_iff_iff, beq_iff_eq, decide_eq_true_iff]
    exact ConstSet.eq_iff_toFinset (evalConst_canonical hlookup hx) (evalConst_canonical hlookup hy)
  refine ⟨⟨_, evalConst_binary hx hy, ConstSet.union_toFinset a b⟩,
    ⟨_, evalConst_binary hx hy, ConstSet.diff_toFinset a b⟩,
    ⟨_, evalConst_binary hx hy, ConstSet.inter_toFinset a b⟩,
    ⟨_, evalConst_binary hx hy, ConstSet.symDiff_toFinset a b⟩, fun z v n hz hn => ?_, ?_, ?_⟩
  · have hint : v.intVal = .ok n := by rw [ConstValue.intVal, hn]
    rw [evalConst_binary hz hy, evalBinary, hint]
    simp only [List.mem_toFinset, List.contains_eq_mem]
    rfl
  · rw [evalConst_binary hx hy, evalBinary, ConstValue.eq, heq]
  · rw [evalConst_binary hx hy, evalBinary, ConstValue.eq, heq, decide_not]

/-- `{1, 3} + {2, 3}`, by name. -/
theorem evalConst_sets_named :
    ∃ u, evalConst
        (fun key => if key = .name ["s"] then some (.set [1, 3])
          else if key = .name ["t"] then some (.set [2, 3]) else none)
        (.binary .add (.designator ["s"] []) (.designator ["t"] [])) = .ok (.set u) ∧
      u.toFinset = {1, 2, 3} := by
  have hlookup : ∀ key v, (if key = Key.name ["s"] then some (ConstValue.set [1, 3])
      else if key = .name ["t"] then some (.set [2, 3]) else none) = some v → v.Canonical := by
    intro key v h
    split_ifs at h <;> cases h <;> exact List.sortedLT_iff_pairwise.2 (by decide)
  obtain ⟨u, hu, hmem⟩ := ((evalConst_sets hlookup).2 (.designator ["s"] []) (.designator ["t"] [])
    [1, 3] [2, 3] rfl rfl).1
  exact ⟨u, hu, hmem.trans (by decide)⟩

end
end NewM2.Sema
