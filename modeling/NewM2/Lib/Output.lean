import Mathlib
import NewM2.Lib.Chars

/-!
# Writing into an array

`putC` writes one character after the other into an array, while there is room. `Puts w v n`: behind `w`
the characters `v` are written, or they do not fit into the `n` cells. With `emit` the writing goes on when
there is no room any more, and nothing more is written; `Emitted` says what there is of the whole. -/

namespace NewM2.Output
open Chars

/-- `IF k > HIGH(out) THEN RETURN FALSE END; out[k] := c; INC(k); RETURN TRUE`, and `k` and `out`. -/
def putC (c : Code) (k : Nat) (out : Chars) : Except Fault (Bool × Nat × Chars) :=
  if out.high < k then .ok (false, k, out)
  else do
    let out ← out.put k c
    .ok (true, k + 1, out)

/-- `IF NOT x THEN RETURN FALSE END`, and on with `f`. -/
def andThen (x : Except Fault (Bool × Nat × Chars)) (f : Nat → Chars → Except Fault (Bool × Nat × Chars)) :
    Except Fault (Bool × Nat × Chars) := do
  let (ok, k, out) ← x
  if ok then f k out else .ok (false, k, out)

/-- `WHILE i > 0 DO DEC(i); IF NOT Put(buf[i]) THEN RETURN FALSE END END`, with the characters in the order in
which they are put. -/
def putAll : List Code → Nat → Chars → Except Fault (Bool × Nat × Chars)
  | [], k, out => .ok (true, k, out)
  | c :: cs, k, out => andThen (putC c k out) fun k out => putAll cs k out

variable {w v : List Code} {n k : Nat} {out : Chars} {allowed : Fault → Prop}

/-- The first `k` of the `n` cells are `w`. -/
structure Wrote (w : List Code) (n k : Nat) (out : Chars) : Prop where
  count : k = w.length
  le : k ≤ n
  size : out.size = n
  cells : ∀ j, j < k → out.cells[j]? = w[j]?

/-- `v` is written behind `w`, if it fits. -/
def Puts (w v : List Code) (n : Nat) (r : Bool × Nat × Chars) : Prop :=
  if (w ++ v).length ≤ n then r.1 = true ∧ Wrote (w ++ v) n r.2.1 r.2.2 else r.1 = false

theorem Wrote.start (out : Chars) : Wrote [] out.size 0 out :=
  ⟨rfl, Nat.zero_le _, rfl, fun j hj => absurd hj (Nat.not_lt_zero j)⟩

theorem Puts.nil (h : Wrote w n k out) : Puts w [] n (true, k, out) := by
  have hle := h.count ▸ h.le
  rw [Puts, List.append_nil, if_pos hle]
  exact ⟨rfl, h⟩

/-- One writing after the other, which is left out if the first one fails. -/
theorem Puts.bind {x : Except Fault (Bool × Nat × Chars)} {f : Nat → Chars → Except Fault (Bool × Nat × Chars)}
    {v' : List Code} (h : Runs allowed x (Puts w v n))
    (hf : ∀ k out, Wrote (w ++ v) n k out → Runs allowed (f k out) (Puts (w ++ v) v' n)) :
    Runs allowed (do
      let (ok, k, out) ← x
      if ok then f k out else .ok (false, k, out)) (Puts w (v ++ v') n) := by
  refine Runs.bind h ?_
  rintro ⟨ok, k, out⟩ hput
  rw [Puts] at hput
  have hlen : (w ++ v ++ v').length = (w ++ v).length + v'.length := List.length_append
  split_ifs at hput with hfits
  · obtain ⟨rfl, hwrote⟩ := hput
    refine (hf k out hwrote).mono fun r hr => ?_
    rwa [Puts, ← List.append_assoc]
  · obtain rfl : ok = false := hput
    refine Runs.ok ?_
    rw [Puts, ← List.append_assoc, if_neg (by omega)]

theorem Puts.andThen {x : Except Fault (Bool × Nat × Chars)} {f : Nat → Chars → Except Fault (Bool × Nat × Chars)}
    {v' : List Code} (h : Runs allowed x (Puts w v n))
    (hf : ∀ k out, Wrote (w ++ v) n k out → Runs allowed (f k out) (Puts (w ++ v) v' n)) :
    Runs allowed (andThen x f) (Puts w (v ++ v') n) := Puts.bind h hf

theorem Wrote.put (h : Wrote w n k out) (hk : k < n) (c : Code) :
    Runs allowed (out.put k c) (Wrote (w ++ [c]) n (k + 1)) := by
  have hlen : (w ++ [c]).length = k + 1 := by rw [List.length_append, List.length_singleton, h.count]
  have hsize := h.size
  refine (put_runs (by omega) c).mono fun o ho => ⟨hlen.symm, hk, ?_, fun j hj => ?_⟩
  · rw [Chars.size, ho, List.length_set, ← Chars.size, hsize]
  · rw [ho]
    rcases Nat.lt_or_eq_of_le (Nat.le_of_lt_succ hj) with hj | rfl
    · rw [List.getElem?_set_ne (by omega), h.cells j hj, List.getElem?_append_left (by rwa [← h.count])]
    · rw [List.getElem?_set_self (by rw [← Chars.size]; omega), h.count, List.getElem?_concat_length]

theorem putC_runs (h : Wrote w n k out) (c : Code) : Runs allowed (putC c k out) (Puts w [c] n) := by
  have hlen : (w ++ [c]).length = k + 1 := by rw [List.length_append, List.length_singleton, h.count]
  have hhigh := out.high_add_one
  have hsize := h.size
  rw [putC]
  split_ifs with hfull
  · refine Runs.ok ?_
    rw [Puts, if_neg (by omega)]
  · refine (h.put (by omega) c).bind fun o ho => Runs.ok ?_
    rw [Puts, if_pos (by omega)]
    exact ⟨rfl, ho⟩

theorem putAll_runs {w : List Code} {k : Nat} {out : Chars} (h : Wrote w n k out) (cs : List Code) :
    Runs allowed (putAll cs k out) (Puts w cs n) := by
  induction cs generalizing w k out with
  | nil => exact Runs.ok (Puts.nil h)
  | cons c cs ih => exact Puts.andThen (putC_runs h c) fun k out h' => ih h'

/-- The cells that are written. -/
theorem Wrote.prefix_cells (h : Wrote w n k out) : w <+: out.cells :=
  List.prefix_iff_getElem?.2 fun j hj => by
    rw [h.cells j (by rwa [h.count]), List.getElem?_eq_getElem]

/-- `IF k > HIGH(out) THEN RETURN FALSE END; out[k] := 0C; RETURN TRUE` behind the writing. -/
def finish (x : Except Fault (Bool × Nat × Chars)) : Except Fault (Bool × Chars) := do
  let (ok, k, out) ← x
  if ok then
    if out.high < k then .ok (false, out)
    else do
      let out ← out.put k nul
      .ok (true, out)
  else .ok (false, out)

/-- What is written ends with a NUL, if that fits. -/
theorem finish_runs {x : Except Fault (Bool × Nat × Chars)} (h : Runs allowed x (Puts [] v n)) :
    Runs allowed (finish x) fun r =>
      (r.1 = true ↔ v.length < n) ∧ (r.1 = true → v ++ [nul] <+: r.2.cells ∧ r.2.size = n) := by
  refine h.bind ?_
  rintro ⟨ok, k, out⟩ hput
  rw [Puts, List.nil_append] at hput
  have hfails : ¬ v.length < n → (false = true ↔ v.length < n) ∧
      (false = true → v ++ [nul] <+: out.cells ∧ out.size = n) := fun hnot =>
    ⟨⟨fun h => absurd h Bool.false_ne_true, fun h => absurd h hnot⟩, fun h => absurd h Bool.false_ne_true⟩
  split_ifs at hput with hfits
  · obtain ⟨rfl, hwrote⟩ := hput
    replace hwrote : Wrote v n k out := hwrote
    have hcount := hwrote.count
    have hsize := hwrote.size
    have hhigh := out.high_add_one
    change Runs allowed (if out.high < k then _ else _) _
    by_cases hroom : out.high < k
    · rw [if_pos hroom]
      exact Runs.ok (hfails (by omega))
    · rw [if_neg hroom]
      refine (hwrote.put (by omega) nul).bind fun o ho => Runs.ok ⟨⟨fun _ => by omega, fun _ => rfl⟩, fun _ => ?_⟩
      exact ⟨ho.prefix_cells, ho.size⟩
  · obtain rfl : ok = false := hput
    exact Runs.ok (hfails (by omega))

/-! ## Writing on -/

/-- An array, the index of the next character and whether all is well so far. -/
structure Sink where
  out : Chars
  pos : Nat
  ok : Bool
deriving DecidableEq

/-- `IF pos < room THEN out[pos] := c; INC(pos) ELSE ok := FALSE END` -/
def emit (room : Nat) (c : Code) (q : Sink) : Except Fault Sink :=
  if q.pos < room then do
    let out ← q.out.put q.pos c
    .ok ⟨out, q.pos + 1, q.ok⟩
  else .ok { q with ok := false }

def emitAll (room : Nat) : List Code → Sink → Except Fault Sink
  | [], q => .ok q
  | c :: cs, q => do
    let q ← emit room c q
    emitAll room cs q

/-- The characters `w` are emitted, in an array of `n` cells of which `room` are to be filled. `fine` is whether
all else is well. -/
structure Emitted (room n : Nat) (fine : Bool) (w : List Code) (q : Sink) : Prop where
  size : q.out.size = n
  pos : q.pos = min w.length room
  ok : q.ok = (fine && decide (w.length ≤ room))
  cells : ∀ j, j < q.pos → q.out.cells[j]? = w[j]?

section emit
variable {room : Nat} {fine : Bool} {q : Sink}

theorem Emitted.start (room : Nat) (out : Chars) : Emitted room out.size true [] ⟨out, 0, true⟩ :=
  ⟨rfl, (Nat.zero_min _).symm, rfl, fun j hj => absurd hj (Nat.not_lt_zero j)⟩

theorem emit_runs (hroom : room ≤ n) (h : Emitted room n fine w q) (c : Code) :
    Runs allowed (emit room c q) (Emitted room n fine (w ++ [c])) := by
  have hlen : (w ++ [c]).length = w.length + 1 := List.length_append
  have hpos := h.pos
  have hsize := h.size
  rw [emit]
  split_ifs with hmore
  · refine (put_runs (by omega) c).bind fun o ho => Runs.ok ⟨?_, ?_, ?_, fun j hj => ?_⟩
    · rw [Chars.size, ho, List.length_set, ← Chars.size, hsize]
    · dsimp only
      omega
    · rw [h.ok, hlen, decide_eq_true (show w.length ≤ room by omega),
        decide_eq_true (show w.length + 1 ≤ room by omega)]
    · dsimp only at hj ⊢
      rw [ho]
      rcases Nat.lt_or_eq_of_le (Nat.le_of_lt_succ hj) with hj | rfl
      · rw [List.getElem?_set_ne (by omega), h.cells j hj, List.getElem?_append_left (by omega)]
      · rw [List.getElem?_set_self (by rw [← Chars.size]; omega), show q.pos = w.length by omega,
          List.getElem?_concat_length]
  · refine Runs.ok ⟨hsize, ?_, ?_, fun j hj => ?_⟩
    · dsimp only
      omega
    · rw [hlen, decide_eq_false (show ¬ w.length + 1 ≤ room by omega), Bool.and_false]
    · dsimp only at hj ⊢
      rw [h.cells j hj, List.getElem?_append_left (by omega)]

theorem emitAll_runs {w : List Code} {q : Sink} (hroom : room ≤ n) (h : Emitted room n fine w q)
    (cs : List Code) : Runs allowed (emitAll room cs q) (Emitted room n fine (w ++ cs)) := by
  induction cs generalizing w q with
  | nil =>
    rw [List.append_nil]
    exact Runs.ok h
  | cons c cs ih =>
    refine (emit_runs hroom h c).bind fun q' hq' => ?_
    rw [← List.singleton_append, ← List.append_assoc]
    exact ih hq'

/-- The NUL behind what is emitted. -/
theorem Emitted.terminate (h : Emitted room n fine w q) (hroom : q.pos < n) :
    Runs allowed (q.out.put q.pos nul) fun out => w.take room ++ [nul] <+: out.cells ∧ out.size = n := by
  have hpos := h.pos
  have hsize := h.size
  refine (put_runs (by omega) nul).mono fun o ho => ?_
  have hosize : o.size = n := by rw [Chars.size, ho, List.length_set, ← Chars.size, hsize]
  have hlen : (w.take room).length = q.pos := by rw [List.length_take, hpos, Nat.min_comm]
  refine ⟨List.prefix_iff_getElem?.2 fun j hj => ?_, hosize⟩
  rw [List.length_append, List.length_singleton, hlen] at hj
  rw [ho]
  rcases Nat.lt_or_eq_of_le (Nat.le_of_lt_succ hj) with hj | rfl
  · rw [List.getElem?_set_ne (by omega), h.cells j hj, List.getElem_append_left (by omega), List.getElem_take,
      List.getElem?_eq_getElem]
  · rw [List.getElem?_set_self (by rw [← Chars.size]; omega), List.getElem_append_right (by omega)]
    simp [hlen]

end emit

end NewM2.Output
