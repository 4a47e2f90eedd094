import Mathlib.Data.List.Basic
import Mathlib.Tactic.Common

/-!
# UTF-16 as lists of units

`encode` gives the units of a text, `decode` reads units one after the other, those that belong to no pair
as errors; a text is read back from its units. -/

namespace NewM2.Utf16

/-- The units of a character: one, or beyond the basic plane a pair of surrogates. -/
def encodeChar (c : Char) : List UInt16 :=
  if c.toNat < 0x10000 then [.ofNat c.toNat]
  else [.ofNat (0xD800 + (c.toNat - 0x10000) / 0x400), .ofNat (0xDC00 + (c.toNat - 0x10000) % 0x400)]

def encode (cs : List Char) : List UInt16 := cs.flatMap encodeChar

/-- The characters of some units; a unit that belongs to no pair is an error. -/
def decode : List UInt16 → List (Except UInt16 Char)
  | [] => []
  | u :: us =>
    if u.toNat < 0xD800 ∨ 0xDFFF < u.toNat then .ok (.ofNat u.toNat) :: decode us
    else if 0xDC00 ≤ u.toNat then .error u :: decode us
    else
      match us with
      | [] => [.error u]
      | u₂ :: us₂ =>
        if u₂.toNat < 0xDC00 ∨ 0xDFFF < u₂.toNat then .error u :: decode (u₂ :: us₂)
        else .ok (.ofNat (0x10000 + u.toNat % 0x400 * 0x400 + u₂.toNat % 0x400)) :: decode us₂

section encode
variable {c : Char} {cs : List Char}

@[simp] theorem encode_nil : encode [] = [] := rfl

theorem encode_cons (c : Char) (cs : List Char) : encode (c :: cs) = encodeChar c ++ encode cs := rfl

theorem encode_append (cs ds : List Char) : encode (cs ++ ds) = encode cs ++ encode ds := List.flatMap_append

theorem length_encodeChar (c : Char) : (encodeChar c).length = if c.toNat < 0x10000 then 1 else 2 := by
  unfold encodeChar
  split <;> rfl

theorem length_encodeChar_pos (c : Char) : 0 < (encodeChar c).length := by
  rw [length_encodeChar]
  split <;> decide

theorem length_encodeChar_le (c : Char) : (encodeChar c).length ≤ 2 := by
  rw [length_encodeChar]
  split <;> decide

theorem encode_eq_nil : encode cs = [] ↔ cs = [] := by
  refine ⟨fun h => ?_, fun h => h ▸ rfl⟩
  rcases cs with - | ⟨c, cs⟩
  · rfl
  · have hpos := length_encodeChar_pos c
    rw [List.append_eq_nil_iff.1 h |>.1] at hpos
    exact absurd hpos (Nat.lt_irrefl 0)

/-- No character is a surrogate. -/
theorem toNat_lt_or (c : Char) : c.toNat < 0xD800 ∨ 0xDFFF < c.toNat ∧ c.toNat < 0x110000 := c.valid

theorem toNat_ofNat_of_lt {n : Nat} (h : n < 0x10000) : (UInt16.ofNat n).toNat = n := by
  rw [UInt16.toNat_ofNat']
  exact Nat.mod_eq_of_lt h

theorem decode_encodeChar (c : Char) (us : List UInt16) : decode (encodeChar c ++ us) = .ok c :: decode us := by
  have hvalid := toNat_lt_or c
  unfold encodeChar
  split
  · next hlt =>
    have hunit : (UInt16.ofNat c.toNat).toNat = c.toNat := toNat_ofNat_of_lt hlt
    have hplain : c.toNat < 0xD800 ∨ 0xDFFF < c.toNat := hvalid.imp id (·.1)
    rw [List.singleton_append, decode.eq_def]
    simp only [hunit, if_pos hplain, Char.ofNat_toNat]
  · next hge =>
    set v := c.toNat - 0x10000 with hv
    have hlt : v < 0x100000 := by omega
    have hhigh : (UInt16.ofNat (0xD800 + v / 0x400)).toNat = 0xD800 + v / 0x400 := toNat_ofNat_of_lt (by omega)
    have hlow : (UInt16.ofNat (0xDC00 + v % 0x400)).toNat = 0xDC00 + v % 0x400 := toNat_ofNat_of_lt (by omega)
    have hsum : 0x10000 + (0xD800 + v / 0x400) % 0x400 * 0x400 + (0xDC00 + v % 0x400) % 0x400 = c.toNat := by omega
    rw [List.cons_append, List.singleton_append, decode.eq_def]
    simp only [hhigh, hlow, hsum, Char.ofNat_toNat]
    rw [if_neg (by omega), if_neg (by omega), if_neg (by omega)]

theorem decode_encode (cs : List Char) : decode (encode cs) = cs.map .ok := by
  induction cs with
  | nil => rfl
  | cons c cs ih => rw [encode_cons, decode_encodeChar, ih, List.map_cons]

end encode

end NewM2.Utf16
