import Mathlib
import NewM2.Lib.Chars

/-!
# Open arrays

An open array of any elements, as `Chars` is one of characters: it has at least one element and fits into
the address space, and an access outside of it is the fault `outside`. `pushAll` writes elements one after
the other from an index on, while there is room; `Puts w v n` says what is there afterwards. -/

namespace NewM2

/-- An open ARRAY OF `α`. -/
@[ext] structure OpenArray (α : Type) where
  cells : List α
  nonempty : cells ≠ []
  small : cells.length < 2 ^ 63
deriving DecidableEq

namespace OpenArray

variable {α : Type}

def size (s : OpenArray α) : Nat := s.cells.length

/-- HIGH -/
def high (s : OpenArray α) : Nat := s.size - 1

def get (s : OpenArray α) (i : Nat) : Except Fault α :=
  match s.cells[i]? with
  | some x => .ok x
  | none => .error .outside

def put (s : OpenArray α) (i : Nat) (x : α) : Except Fault (OpenArray α) :=
  if i < s.size then
    .ok ⟨s.cells.set i x, by simpa [List.set_eq_nil_iff] using s.nonempty, by simpa using s.small⟩
  else .error .outside

/-- `IF k > HIGH(out) THEN RETURN FALSE END; out[k] := x; INC(k); RETURN TRUE`, and `k` and `out`. -/
def push (x : α) (k : Nat) (out : OpenArray α) : Except Fault (Bool × Nat × OpenArray α) :=
  if out.high < k then .ok (false, k, out)
  else do
    let out ← out.put k x
    .ok (true, k + 1, out)

/-- `IF NOT Put(x) THEN RETURN FALSE END`, for one element after the other. -/
def pushAll : List α → Nat → OpenArray α → Except Fault (Bool × Nat × OpenArray α)
  | [], k, out => .ok (true, k, out)
  | x :: xs, k, out => do
    let (ok, k, out) ← push x k out
    if ok then pushAll xs k out else .ok (false, k, out)

variable {s out : OpenArray α} {i k n : Nat} {x : α} {v w : List α} {allowed : Fault → Prop}

theorem size_pos (s : OpenArray α) : 0 < s.size := List.length_pos_of_ne_nil s.nonempty

theorem le_high_iff : i ≤ s.high ↔ i < s.size := by
  have h := s.size_pos
  rw [high]
  omega

theorem high_add_one (s : OpenArray α) : s.high + 1 = s.size := by
  have h := s.size_pos
  rw [high]
  omega

theorem get_of_getElem? (h : s.cells[i]? = some x) : s.get i = .ok x := by rw [get, h]

theorem get_eq (h : i < s.size) : s.get i = .ok s.cells[i] := get_of_getElem? (List.getElem?_eq_getElem h)

theorem put_runs (h : i < s.size) (x : α) :
    Runs allowed (s.put i x) fun s' => s'.cells = s.cells.set i x := by
  rw [put, if_pos h]
  exact Runs.ok rfl

/-! ## Writing one after the other -/

/-- The first `k` of the `n` cells are `w`. -/
structure Wrote (w : List α) (n k : Nat) (out : OpenArray α) : Prop where
  count : k = w.length
  size : out.size = n
  cells : out.cells.take k = w

/-- `v` is written behind `w`, if it fits. -/
def Puts (w v : List α) (n : Nat) (r : Bool × Nat × OpenArray α) : Prop :=
  if (w ++ v).length ≤ n then r.1 = true ∧ Wrote (w ++ v) n r.2.1 r.2.2 else r.1 = false

theorem Wrote.start (out : OpenArray α) : Wrote [] out.size 0 out := ⟨rfl, rfl, rfl⟩

theorem Puts.nil (h : Wrote w n k out) : Puts w [] n (true, k, out) := by
  have hle : w.length ≤ n := by
    rw [← h.cells, ← h.size, size]
    exact List.length_take_le' k out.cells
  rw [Puts, List.append_nil, if_pos hle]
  exact ⟨rfl, h⟩

/-- One writing after the other, which is left out if the first one fails. -/
theorem Puts.bind {x : Except Fault (Bool × Nat × OpenArray α)}
    {f : Nat → OpenArray α → Except Fault (Bool × Nat × OpenArray α)} {v' : List α}
    (h : Runs allowed x (Puts w v n))
    (hf : ∀ k out, Wrote (w ++ v) n k out → Runs allowed (f k out) (Puts (w ++ v) v' n)) :
    Runs allowed (do
      let (ok, k, out) ← x
      if ok then f k out else .ok (false, k, out)) (Puts w (v ++ v') n) := by
  refine Runs.bind h ?_
  rintro ⟨ok, k, out⟩ hput
  rw [Puts] at hput
  have hlen : (w ++ v ++ v').length = (w ++ v).length + v'.length := List.length_append
  split_ifs at hput with hfits
  · obtain ⟨rfl, hwrote⟩ := hput
    refine (hf k out hwrote).mono fun r hr => ?_
    rwa [Puts, ← List.append_assoc]
  · obtain rfl : ok = false := hput
    refine Runs.ok ?_
    rw [Puts, ← List.append_assoc, if_neg (by omega)]

theorem push_runs (h : Wrote w n k out) (x : α) : Runs allowed (push x k out) (Puts w [x] n) := by
  have hlen : (w ++ [x]).length = k + 1 := by rw [List.length_append, List.length_singleton, h.count]
  have hhigh := out.high_add_one
  have hsize := h.size
  rw [push]
  split_ifs with hfull
  · refine Runs.ok ?_
    rw [Puts, if_neg (by omega)]
  · have hk : k < out.cells.length := by
      have hcells : out.cells.length = out.size := rfl
      omega
    refine (put_runs (by omega) x).bind fun o ho => Runs.ok ?_
    rw [Puts, if_pos (by omega)]
    refine ⟨rfl, hlen.symm, by rw [OpenArray.size, ho, List.length_set, ← OpenArray.size, hsize], ?_⟩
    have hk' : k < (out.cells.set k x).length := by rwa [List.length_set]
    dsimp only
    rw [ho, List.take_succ_eq_append_getElem hk', List.getElem_set_self, List.take_set_of_le le_rfl, h.cells]

theorem pushAll_runs {w : List α} {k : Nat} {out : OpenArray α} (h : Wrote w n k out) (xs : List α) :
    Runs allowed (pushAll xs k out) (Puts w xs n) := by
  induction xs generalizing w k out with
  | nil => exact Runs.ok (Puts.nil h)
  | cons x xs ih => exact Puts.bind (push_runs h x) fun k out h' => ih h'

/-! ## Writing what may be wrong -/

/-- What there is to write is written, if it fits. -/
def Gives (w : List α) (o : Option (List α)) (n : Nat) (r : Bool × Nat × OpenArray α) : Prop :=
  o.elim (r.1 = false) fun v => Puts w v n r

theorem Gives.bind {x : Except Fault (Bool × Nat × OpenArray α)}
    {f : Nat → OpenArray α → Except Fault (Bool × Nat × OpenArray α)} {o : Option (List α)}
    (h : Runs allowed x (Puts w v n))
    (hf : ∀ k out, Wrote (w ++ v) n k out → Runs allowed (f k out) (Gives (w ++ v) o n)) :
    Runs allowed (do
      let (ok, k, out) ← x
      if ok then f k out else .ok (false, k, out)) (Gives w (o.map (v ++ ·)) n) := by
  cases o with
  | some v' => exact Puts.bind h hf
  | none =>
    refine Runs.bind h ?_
    rintro ⟨ok, k, out⟩ hput
    rw [Puts] at hput
    cases ok with
    | false => exact Runs.ok rfl
    | true =>
      split_ifs at hput
      have hrun := hf k out hput.2
      exact hrun

end OpenArray
end NewM2
