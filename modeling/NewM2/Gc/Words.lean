import NewM2.Gc.Heap
import Mathlib.Data.Nat.Bitwise

/-! # Words and block headers

What reads of machine words see of writes elsewhere, and the arithmetic of the mark bit. A store into
the tag word, the size word or the link cell of a block is a separate case each: `Apart` says that two
blocks do not overlap, which keeps their headers and link cells apart. -/

namespace NewM2.Gc

section words
variable {m m' : Mem} {a b v n : Nat}

theorem rd_lt (m : Mem) (a : Nat) : rd m a < 2 ^ 64 := Mem.read_lt m a 8

theorem rd_wr_self (h : v < 2 ^ 64) : rd (wr m a v) a = v := Mem.read_write_of_lt m a 8 h

theorem rd_wr_of_apart (h : b + 8 ≤ a ∨ a + 8 ≤ b) : rd (wr m a v) b = rd m b :=
  Mem.read_write_of_disjoint m v h

theorem rd_fill_of_apart (h : b + 8 ≤ a ∨ a + n ≤ b) : rd (Mem.fill m a n) b = rd m b :=
  Mem.read_fill_of_disjoint m h

theorem rd_congr (h : ∀ x, a ≤ x → x < a + 8 → m' x = m x) : rd m' a = rd m a := Mem.read_congr h

theorem wr_of_apart {x : Nat} (h : x < a ∨ a + 8 ≤ x) : wr m a v x = m x :=
  Mem.write_of_disjoint m v h

end words

/-! ## The mark bit -/

section tags
variable {tag : Nat}

theorem setMark_eq (tag : Nat) : setMark tag = 2 * (tag / 2) + 1 := by
  have hmod : setMark tag % 2 = 1 := Nat.or_mod_two_eq_one.2 (.inr rfl)
  have hdiv : setMark tag / 2 = tag / 2 := by
    unfold setMark
    rw [Nat.or_div_two]
    simp
  omega

theorem setMark_lt (h : tag < 2 ^ 64) : setMark tag < 2 ^ 64 := by
  rw [setMark_eq]; omega

theorem clearMark_le (tag : Nat) : clearMark tag ≤ tag := by unfold clearMark; omega

@[simp] theorem clearMark_setMark (tag : Nat) : clearMark (setMark tag) = clearMark tag := by
  rw [setMark_eq]; unfold clearMark; omega

@[simp] theorem clearMark_clearMark (tag : Nat) : clearMark (clearMark tag) = clearMark tag := by
  unfold clearMark; omega

@[simp] theorem isMarked_setMark (tag : Nat) : isMarked (setMark tag) = true := by
  rw [setMark_eq]; unfold isMarked; rw [beq_iff_eq]; omega

@[simp] theorem isMarked_clearMark (tag : Nat) : isMarked (clearMark tag) = false := by
  unfold isMarked clearMark
  rw [beq_eq_false_iff_ne]
  omega

theorem isFree_congr {tag' : Nat} (h : clearMark tag' = clearMark tag) : isFree tag' = isFree tag := by
  unfold isFree; rw [h]

@[simp] theorem isFree_zero : isFree 0 = true := rfl

end tags

/-! ## Headers of blocks that do not overlap -/

/-- Two headers with their link cells do not overlap. -/
def Apart (a b : Nat) : Prop := a + minBlock ≤ b ∨ b + minBlock ≤ a

theorem Apart.symm {a b : Nat} (h : Apart a b) : Apart b a := Or.symm h

section headers
variable {m m' : Mem} {a b v n : Nat}

theorem tagOf_wr_self (h : v < 2 ^ 64) : tagOf (wr m b v) b = v := rd_wr_self h

theorem blockSize_wr_self (h : v < 2 ^ 64) : blockSize (wr m (b + 8) v) b = v := rd_wr_self h

theorem nextLink_wr_self (h : v < 2 ^ 64) : nextLink (wr m (b + headerSize) v) b = v := rd_wr_self h

/-- A word store that misses the header and the link cell of `b`. -/
theorem header_wr (h : a + 8 ≤ b ∨ b + 24 ≤ a) :
    tagOf (wr m a v) b = tagOf m b ∧ blockSize (wr m a v) b = blockSize m b ∧
      nextLink (wr m a v) b = nextLink m b :=
  ⟨rd_wr_of_apart (by omega), rd_wr_of_apart (by omega),
    rd_wr_of_apart (by unfold headerSize; omega)⟩

/-- The header and the link cell of `b` are untouched. -/
theorem header_congr (h : ∀ x, b ≤ x → x < b + 24 → m' x = m x) :
    tagOf m' b = tagOf m b ∧ blockSize m' b = blockSize m b ∧ nextLink m' b = nextLink m b :=
  ⟨rd_congr fun x h1 h2 => h x (by omega) (by omega),
    rd_congr fun x h1 h2 => h x (by omega) (by omega),
    rd_congr fun x h1 h2 => h x (by unfold headerSize at *; omega) (by unfold headerSize at *; omega)⟩

end headers

end NewM2.Gc
