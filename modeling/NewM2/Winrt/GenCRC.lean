import Mathlib
import NewM2.Lib.Chars
import NewM2.Lib.Crc
import NewM2.Lib.Runs

/-!
# CRC-32 (`library/winrtmod/GenCRC.mod`)

A CRC is a CARDINAL that holds 32 bits. The table is made by shifts, one entry for each byte, and a byte is
folded in by a look into the table. -/

namespace NewM2.Winrt.GenCRC
open Crc

abbrev Byte := BitVec 8

/-- CARDINAL -/
abbrev Word := BitVec 64

def magic : Word := 0xEDB88320

def mask32 : Word := 0xFFFFFFFF

/-- The reflected polynomial. -/
def polynomial : BitVec 32 := 0xEDB88320

/-- One round of the inner loop of `InitCrcTable`. -/
def tableStep (val : Word) : Word := if val &&& 1 ≠ 0 then val >>> 1 ^^^ magic else val >>> 1

/-- `InitCrcTable` -/
def table : List Word := (List.range 256).map fun i => tableStep^[8] (BitVec.ofNat 64 i) &&& mask32

def crcByte (b : Byte) (crc : Word) : Except Fault Word :=
  let idx := (b.setWidth 64 ^^^ crc) &&& 0xFF
  match table[idx.toNat]? with
  | some entry => .ok ((crc >>> 8 ^^^ entry) &&& mask32)
  | none => .error .indexException

/-- The loop of `CrcBlock` over an array that is not empty, and of `CrcBytes`. -/
def crcLoop : List Byte → Word → Except Fault Word
  | [], crc => .ok crc
  | b :: bs, crc => do
    let crc ← crcByte b crc
    crcLoop bs crc

def crcBlock (data : List Byte) (crc : Word) : Except Fault Word := crcLoop data crc

def crcBytes (data : List Byte) (crc : Word) : Except Fault Word := crcLoop data crc

/-- The eight bits of a byte go one by one into the register, the lowest first. -/
def referenceByte (crc : BitVec 32) (b : Byte) : BitVec 32 := feedBits polynomial (b.setWidth 32) 8 crc

/-- The bitwise computation. -/
def reference (crc : BitVec 32) (bs : List Byte) : BitVec 32 := bs.foldl referenceByte crc

/-- A call of `CrcByte`, `CrcBlock` or `CrcBytes`. -/
inductive Call
  | byte (b : Byte)
  | block (data : List Byte) (h : data ≠ [])
  | bytes (data : List Byte)

def Call.data : Call → List Byte
  | byte b => [b]
  | block data _ => data
  | bytes data => data

def Call.run (crc : Word) : Call → Except Fault Word
  | byte b => crcByte b crc
  | block data _ => crcBlock data crc
  | bytes data => crcBytes data crc

def fold : List Call → Word → Except Fault Word
  | [], crc => .ok crc
  | c :: cs, crc => do
    let crc ← c.run crc
    fold cs crc

/-! ## Words of 32 bits -/

theorem and_one_ne_zero (x : BitVec 32) : x.setWidth 64 &&& 1 ≠ 0 ↔ x.getLsbD 0 = true := by
  rw [show (1 : Word) = 1#64 from rfl, BitVec.and_one_eq_setWidth_ofBool_getLsbD, BitVec.getLsbD_setWidth]
  cases x.getLsbD 0 <;> decide

theorem setWidth_ushiftRight (x : BitVec 32) (n : Nat) : (x >>> n).setWidth 64 = x.setWidth 64 >>> n := by
  refine BitVec.eq_of_toNat_eq ?_
  simp [BitVec.toNat_setWidth, BitVec.toNat_ushiftRight]

theorem and_mask32 (x : BitVec 32) : x.setWidth 64 &&& mask32 = x.setWidth 64 := by
  have hmask : mask32.toNat = 2 ^ 32 - 1 := rfl
  refine BitVec.eq_of_toNat_eq ?_
  rw [BitVec.toNat_and, hmask, Nat.and_two_pow_sub_one_eq_mod, BitVec.toNat_setWidth]
  have hlt := x.isLt
  omega

theorem tableStep_eq (x : BitVec 32) : tableStep (x.setWidth 64) = (shift polynomial x).setWidth 64 := by
  rw [tableStep, shift]
  by_cases h : x.getLsbD 0 = true
  · rw [if_pos ((and_one_ne_zero x).2 h), if_pos h, BitVec.setWidth_xor, setWidth_ushiftRight]
    rfl
  · rw [if_neg (mt (and_one_ne_zero x).1 h), if_neg h, setWidth_ushiftRight]

theorem tableSteps_eq (x : BitVec 32) (n : Nat) :
    tableStep^[n] (x.setWidth 64) = ((shift polynomial)^[n] x).setWidth 64 := by
  induction n with
  | zero => rfl
  | succ n ih => rw [Function.iterate_succ_apply', ih, tableStep_eq, Function.iterate_succ_apply']

theorem table_getElem? (x : BitVec 32) (h : x.toNat < 256) :
    table[x.toNat]? = some (((shift polynomial)^[8] x).setWidth 64) := by
  have hword : BitVec.ofNat 64 x.toNat = x.setWidth 64 := by
    refine BitVec.eq_of_toNat_eq ?_
    rw [BitVec.toNat_ofNat, BitVec.toNat_setWidth]
  rw [table, List.getElem?_map, List.getElem?_range h, Option.map_some, hword, tableSteps_eq, and_mask32]

/-! ## Folding -/

theorem byte_ushiftRight (b : Byte) : b.setWidth 32 >>> 8 = 0#32 := by
  refine BitVec.eq_of_toNat_eq ?_
  have hlt := b.isLt
  rw [BitVec.toNat_ushiftRight, BitVec.toNat_setWidth, Nat.shiftRight_eq_div_pow, BitVec.toNat_ofNat]
  omega

theorem referenceByte_eq (x : BitVec 32) (b : Byte) :
    referenceByte x b = (shift polynomial)^[8] (x ^^^ b.setWidth 32) := by
  rw [feedBits_eq, byte_ushiftRight, BitVec.xor_zero, referenceByte]

/-- A look into the table is eight shifts. -/
theorem crcByte_eq (b : Byte) (x : BitVec 32) :
    crcByte b (x.setWidth 64) = .ok ((referenceByte x b).setWidth 64) := by
  have hbyte : b.setWidth 64 = (b.setWidth 32).setWidth 64 := by
    refine BitVec.eq_of_toNat_eq ?_
    have hlt := b.isLt
    simp only [BitVec.toNat_setWidth]
    omega
  have hmask : (0xFF : Word) = (0xFF : BitVec 32).setWidth 64 := rfl
  have hidx : (b.setWidth 64 ^^^ x.setWidth 64) &&& 0xFF =
      ((x ^^^ b.setWidth 32) &&& 0xFF).setWidth 64 := by
    rw [hbyte, hmask, ← BitVec.setWidth_xor, ← BitVec.setWidth_and, BitVec.xor_comm]
  have hlow : ((x ^^^ b.setWidth 32) &&& 0xFF).toNat < 256 := by
    rw [BitVec.toNat_and]
    exact Nat.and_lt_two_pow (n := 8) _ (by decide)
  have hnat : ((b.setWidth 64 ^^^ x.setWidth 64) &&& 0xFF).toNat =
      ((x ^^^ b.setWidth 32) &&& 0xFF).toNat := by
    rw [hidx, BitVec.toNat_setWidth, Nat.mod_eq_of_lt (hlow.trans (by decide))]
  have hshift : (x ^^^ b.setWidth 32) >>> 8 = x >>> 8 := by
    rw [BitVec.ushiftRight_xor_distrib, byte_ushiftRight, BitVec.xor_zero]
  have hentry := table_getElem? _ hlow
  rw [← hnat] at hentry
  have hlows : ∀ i, i < 8 → (0xFF : BitVec 32).getLsbD i = true := by decide
  have hsplit : (shift polynomial)^[8] (x ^^^ b.setWidth 32) =
      x >>> 8 ^^^ (shift polynomial)^[8] ((x ^^^ b.setWidth 32) &&& 0xFF) := by
    rw [shift_low hlows (by decide), hshift, BitVec.xor_comm]
  rw [crcByte, hentry, referenceByte_eq, hsplit]
  dsimp only
  rw [← setWidth_ushiftRight, ← BitVec.setWidth_xor, and_mask32]

theorem crcLoop_eq (bs : List Byte) (x : BitVec 32) :
    crcLoop bs (x.setWidth 64) = .ok ((reference x bs).setWidth 64) := by
  induction bs generalizing x with
  | nil => rfl
  | cons b bs ih =>
    rw [crcLoop, crcByte_eq]
    exact ih (referenceByte x b)

theorem run_eq (c : Call) (x : BitVec 32) :
    c.run (x.setWidth 64) = .ok ((reference x c.data).setWidth 64) := by
  cases c with
  | byte b => exact crcByte_eq b x
  | block data h => exact crcLoop_eq data x
  | bytes data => exact crcLoop_eq data x

theorem reference_append (x : BitVec 32) (a b : List Byte) :
    reference x (a ++ b) = reference (reference x a) b := List.foldl_append

theorem fold_eq (cs : List Call) (x : BitVec 32) :
    fold cs (x.setWidth 64) = .ok ((reference x (cs.flatMap Call.data)).setWidth 64) := by
  induction cs generalizing x with
  | nil => rfl
  | cons c cs ih =>
    rw [fold, run_eq, List.flatMap_cons, reference_append]
    exact ih (reference x c.data)

/-- The calls give the bitwise CRC of all their bytes, however these are divided among them. -/
theorem fold_exact (cs : List Call) (start : BitVec 32) :
    fold cs (start.setWidth 64) = .ok ((reference start (cs.flatMap Call.data)).setWidth 64) ∧
    fold cs (start.setWidth 64) = crcBytes (cs.flatMap Call.data) (start.setWidth 64) :=
  ⟨fold_eq cs start, (fold_eq cs start).trans (crcLoop_eq _ start).symm⟩

end NewM2.Winrt.GenCRC
