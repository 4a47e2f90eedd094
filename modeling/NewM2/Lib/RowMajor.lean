import Mathlib

/-!
# Row-major offsets

An axis has a first index, a number of indices and a stride. The axes of a block of size `S` are
`Nested S` when the indices of each cut the block into pieces of its stride, which the next axis
divides in turn. Then the offset of an index tuple in range is inside the block together with the
piece it names (`offset_add_pieceSize_le`), and different tuples name different offsets
(`offset_injective`).
-/

namespace NewM2.RowMajor

structure Axis where
  lo : Int
  count : Int
  stride : Int
deriving Repr, DecidableEq

def Axis.Mem (a : Axis) (v : Int) : Prop := a.lo ≤ v ∧ v < a.lo + a.count

instance (a : Axis) (v : Int) : Decidable (a.Mem v) := inferInstanceAs (Decidable (_ ∧ _))

/-- The axes, outermost first, divide a block of size `S`. -/
def Nested (S : Int) : List Axis → Prop
  | [] => 0 ≤ S
  | a :: axes => 0 ≤ a.count ∧ S = a.count * a.stride ∧ Nested a.stride axes

/-- No more indices than axes, each of its axis. -/
def InRange : List Axis → List Int → Prop
  | _, [] => True
  | [], _ :: _ => False
  | a :: axes, v :: vs => a.Mem v ∧ InRange axes vs

instance : ∀ (axes : List Axis) (vs : List Int), Decidable (InRange axes vs)
  | [], [] | _ :: _, [] => .isTrue trivial
  | [], _ :: _ => .isFalse id
  | a :: axes, v :: vs =>
    have := instDecidableInRange axes vs
    inferInstanceAs (Decidable (a.Mem v ∧ InRange axes vs))

def offset : List Axis → List Int → Int
  | a :: axes, v :: vs => (v - a.lo) * a.stride + offset axes vs
  | _, _ => 0

/-- The size of what a tuple of `n` indices names in a block of size `S`. -/
def pieceSize (S : Int) : List Axis → Nat → Int
  | a :: axes, n + 1 => pieceSize a.stride axes n
  | _, _ => S

variable {S : Int} {axes : List Axis} {vs vs' : List Int}

theorem Nested.nonneg : ∀ {axes : List Axis} {S : Int}, Nested S axes → 0 ≤ S
  | [], _, h => h
  | _ :: _, _, ⟨hcount, hS, h⟩ => hS ▸ mul_nonneg hcount h.nonneg

theorem InRange.length_le : ∀ {axes : List Axis} {vs : List Int}, InRange axes vs → vs.length ≤ axes.length
  | _, [], _ => Nat.zero_le _
  | _ :: _, _ :: _, ⟨_, h⟩ => Nat.succ_le_succ h.length_le

theorem offset_nonneg (hn : Nested S axes) (h : InRange axes vs) : 0 ≤ offset axes vs := by
  induction axes generalizing S vs with
  | nil => rcases vs with - | ⟨v, vs⟩ <;> simp [offset]
  | cons a axes ih =>
    rcases vs with - | ⟨v, vs⟩
    · exact le_rfl
    · obtain ⟨⟨hlo, -⟩, h⟩ := h
      have hstride := hn.2.2.nonneg
      exact add_nonneg (mul_nonneg (by omega) hstride) (ih hn.2.2 h)

/-- A piece lies inside the block. -/
theorem offset_add_pieceSize_le (hn : Nested S axes) (h : InRange axes vs) :
    offset axes vs + pieceSize S axes vs.length ≤ S := by
  induction axes generalizing S vs with
  | nil => rcases vs with - | ⟨v, vs⟩ <;> simp [offset, pieceSize]
  | cons a axes ih =>
    rcases vs with - | ⟨v, vs⟩
    · simp [offset, pieceSize]
    · obtain ⟨⟨-, hhi⟩, h⟩ := h
      obtain ⟨-, hS, hn⟩ := hn
      have hin := ih hn h
      -- the pieces up to and with `v` are not more than all of them
      have hstep : (v - a.lo + 1) * a.stride ≤ a.count * a.stride :=
        mul_le_mul_of_nonneg_right (by omega) hn.nonneg
      simp only [offset, List.length_cons, pieceSize]
      have : (v - a.lo + 1) * a.stride = (v - a.lo) * a.stride + a.stride := by ring
      omega

/-- Different index tuples name different offsets. -/
theorem offset_injective (hn : Nested S axes) (h : InRange axes vs) (h' : InRange axes vs')
    (hlen : vs.length = vs'.length) (hpos : 0 < pieceSize S axes vs.length)
    (heq : offset axes vs = offset axes vs') : vs = vs' := by
  induction axes generalizing S vs vs' with
  | nil =>
    rcases vs with - | ⟨v, vs⟩
    · exact (List.eq_nil_of_length_eq_zero hlen.symm).symm
    · exact h.elim
  | cons a axes ih =>
    rcases vs with - | ⟨v, vs⟩
    · exact (List.eq_nil_of_length_eq_zero hlen.symm).symm
    rcases vs' with - | ⟨v', vs'⟩
    · cases hlen
    obtain ⟨-, h⟩ := h
    obtain ⟨-, h'⟩ := h'
    obtain ⟨-, -, hn⟩ := hn
    replace hlen : vs.length = vs'.length := Nat.succ.inj hlen
    simp only [offset, List.length_cons, pieceSize] at heq hpos
    -- both rests are smaller than the stride, so the first indices agree
    have hr := offset_nonneg hn h
    have hr' := offset_nonneg hn h'
    have hle := offset_add_pieceSize_le hn h
    have hle' := hlen ▸ offset_add_pieceSize_le hn h'
    have hv : v = v' := by
      have hmul : (v - v') * a.stride = offset axes vs' - offset axes vs := by linarith
      have hlt : (v - v') * a.stride < 1 * a.stride := by omega
      have hgt : (-1) * a.stride < (v - v') * a.stride := by omega
      have hstride : 0 < a.stride := by omega
      have := lt_of_mul_lt_mul_right hlt hstride.le
      have := lt_of_mul_lt_mul_right hgt hstride.le
      omega
    subst hv
    rw [ih hn h h' hlen hpos (by omega)]

end NewM2.RowMajor
