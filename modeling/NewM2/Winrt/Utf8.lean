import Mathlib
import NewM2.Lib.Cursor
import NewM2.Lib.Output
import NewM2.Lib.Wtf8

/-!
# UTF-8 (`library/winrtmod/Utf8.mod`)

`length` and `encode` walk through the units of a text, a pair of surrogates at a time; `decode` walks
through the bytes. A text in memory has fewer than `2 ^ 62` characters, so that no count of its bytes wraps
around. -/

namespace NewM2.Winrt.Utf8
open Chars Output Wtf8

/-- `cp := ORD(wide[i])` is done already, and `i` is the index behind it: the code point, and whether the unit
at `i` belongs to it. -/
def combine (wide : Chars) (cp i : Nat) : Except Fault (Nat × Bool) :=
  if 0xD800 ≤ cp ∧ cp ≤ 0xDBFF ∧ i ≤ wide.high then do
    let c ← wide.get i
    if c ≠ nul ∧ 0xDC00 ≤ c.toNat ∧ c.toNat ≤ 0xDFFF then
      .ok (0x10000 + (cp - 0xD800) * 0x400 + (c.toNat - 0xDC00), true)
    else .ok (cp, false)
  else .ok (cp, false)

def formLength (cp : Nat) : Nat := if cp < 0x80 then 1 else if cp < 0x800 then 2 else if cp < 0x10000 then 3 else 4

def lengthLoop (wide : Chars) (i n : Nat) : Except Fault Nat :=
  if i < wide.size then do
    let c ← wide.get i
    if c = nul then .ok n
    else do
      let (cp, both) ← combine wide c.toNat (i + 1)
      lengthLoop wide (i + 1 + both.toNat) (n + formLength cp)
  else .ok n
termination_by wide.size - i

def length (wide : Chars) : Except Fault Nat := lengthLoop wide 0 0

/-- `VAL(BYTE, v BAND 0FFH)` -/
def byte (v : Nat) : Byte := BitVec.ofNat 8 (v &&& 0xFF)

/-- What is `Put` for a code point. -/
def bytesOf (cp : Nat) : List Byte :=
  if cp < 0x80 then [byte cp]
  else if cp < 0x800 then [byte (0xC0 ||| cp >>> 6), byte (0x80 ||| cp &&& 0x3F)]
  else if cp < 0x10000 then
    [byte (0xE0 ||| cp >>> 12), byte (0x80 ||| cp >>> 6 &&& 0x3F), byte (0x80 ||| cp &&& 0x3F)]
  else [byte (0xF0 ||| cp >>> 18), byte (0x80 ||| cp >>> 12 &&& 0x3F), byte (0x80 ||| cp >>> 6 &&& 0x3F),
    byte (0x80 ||| cp &&& 0x3F)]

def encodeLoop (wide : Chars) (i k : Nat) (utf8 : OpenArray Byte) : Except Fault (Bool × Nat × OpenArray Byte) :=
  if i < wide.size then do
    let c ← wide.get i
    if c = nul then .ok (true, k, utf8)
    else do
      let (cp, both) ← combine wide c.toNat (i + 1)
      let (ok, k, utf8) ← OpenArray.pushAll (bytesOf cp) k utf8
      if ok then encodeLoop wide (i + 1 + both.toNat) k utf8 else .ok (false, k, utf8)
  else .ok (true, k, utf8)
termination_by wide.size - i

/-- The result, `n` and `utf8`. -/
def encode (wide : Chars) (utf8 : OpenArray Byte) (n : Nat) : Except Fault (Bool × Nat × OpenArray Byte) := do
  let (ok, k, utf8) ← encodeLoop wide 0 0 utf8
  .ok (ok, if ok then k else n, utf8)

/-- `cp` and `nb` of a lead byte. -/
def leadOf (b0 : Nat) : Option (Nat × Nat) :=
  if b0 < 0x80 then some (b0, 0)
  else if 0xC0 ≤ b0 ∧ b0 < 0xE0 then some (b0 &&& 0x1F, 1)
  else if 0xE0 ≤ b0 ∧ b0 < 0xF0 then some (b0 &&& 0x0F, 2)
  else if 0xF0 ≤ b0 ∧ b0 < 0xF8 then some (b0 &&& 0x07, 3)
  else none

/-- The loop over `nb` continuation bytes from `i` on. -/
def continuation (utf8 : OpenArray Byte) (n : Nat) : Nat → Nat → Nat → Except Fault (Option Nat)
  | 0, _, cp => .ok (some cp)
  | nb + 1, i, cp =>
    if n ≤ i then .ok none
    else do
      let cb ← utf8.get i
      if cb.toNat < 0x80 ∨ 0xC0 ≤ cb.toNat then .ok none
      else continuation utf8 n nb (i + 1) (cp <<< 6 ||| cb.toNat &&& 0x3F)

/-- What is `PutU` for a code point. -/
def unitsOf (cp : Nat) : List Code :=
  if cp ≤ 0xFFFF then [BitVec.ofNat 16 cp]
  else [BitVec.ofNat 16 (0xD800 + (cp - 0x10000) >>> 10), BitVec.ofNat 16 (0xDC00 + (cp - 0x10000 &&& 0x3FF))]

def decodeLoop (utf8 : OpenArray Byte) (n i k : Nat) (wide : Chars) : Except Fault (Bool × Nat × Chars) :=
  if i < n then do
    let b0 ← utf8.get i
    match leadOf b0.toNat with
    | none => .ok (false, k, wide)
    | some (cp, nb) => do
      match ← continuation utf8 n nb (i + 1) cp with
      | none => .ok (false, k, wide)
      | some cp => do
        let (ok, k, wide) ← putAll (unitsOf cp) k wide
        if ok then decodeLoop utf8 n (i + 1 + nb) k wide else .ok (false, k, wide)
  else .ok (true, k, wide)
termination_by n - i

/-- The result, and `wide`. -/
def decode (utf8 : OpenArray Byte) (n : Nat) (wide : Chars) : Except Fault (Bool × Chars) :=
  finish (decodeLoop utf8 n 0 0 wide)

/-! ## Bits -/

section bits
variable {p : Nat}

theorem byte_of_lt (h : p < 256) : byte p = BitVec.ofNat 8 p := by
  rw [byte, show (0xFF : Nat) = 2 ^ 8 - 1 from rfl, Nat.and_two_pow_sub_one_eq_mod, Nat.mod_eq_of_lt h]

theorem and_3F (p : Nat) : p &&& 0x3F = p % 64 := Nat.and_two_pow_sub_one_eq_mod p 6

/-- A continuation byte. -/
theorem cont_eq (p : Nat) : byte (0x80 ||| p &&& 0x3F) = BitVec.ofNat 8 (0x80 + p % 64) := by
  have h : 0x80 ||| p % 64 = 0x80 + p % 64 :=
    (Nat.two_pow_add_eq_or_of_lt (i := 7) (by omega) 1).symm
  rw [and_3F, h, byte_of_lt (by omega)]

theorem bytesOf_eq (h : p < 0x200000) : bytesOf p = form p := by
  have h₂ : p / 64 < 32 → 0xC0 ||| p / 64 = 0xC0 + p / 64 := fun h =>
    (Nat.two_pow_add_eq_or_of_lt (i := 5) h 6).symm
  have h₃ : p / 4096 < 16 → 0xE0 ||| p / 4096 = 0xE0 + p / 4096 := fun h =>
    (Nat.two_pow_add_eq_or_of_lt (i := 4) h 14).symm
  have h₄ : p / 262144 < 8 → 0xF0 ||| p / 262144 = 0xF0 + p / 262144 := fun h =>
    (Nat.two_pow_add_eq_or_of_lt (i := 3) h 30).symm
  rw [bytesOf, form]
  simp only [cont_eq, Nat.shiftRight_eq_div_pow, Nat.reducePow]
  split_ifs with hs₁ hs₂ hs₃
  · rw [byte_of_lt (by omega)]
  · rw [h₂ (by omega), byte_of_lt (by omega)]
  · rw [h₃ (by omega), byte_of_lt (by omega)]
  · rw [h₄ (by omega), byte_of_lt (by omega)]

theorem formLength_eq (p : Nat) : formLength p = (form p).length := by
  rw [formLength, form]
  split_ifs <;> rfl

theorem leadOf_eq (b : Nat) : leadOf b = lead b := by
  have h₁ : b &&& 0x1F = b % 32 := Nat.and_two_pow_sub_one_eq_mod b 5
  have h₂ : b &&& 0x0F = b % 16 := Nat.and_two_pow_sub_one_eq_mod b 4
  have h₃ : b &&& 0x07 = b % 8 := Nat.and_two_pow_sub_one_eq_mod b 3
  rw [leadOf, lead, h₁, h₂, h₃]
  split_ifs <;> first | rfl | omega

theorem unitsOf_eq (p : Nat) : unitsOf p = units p := by
  have h : p - 0x10000 &&& 0x3FF = (p - 0x10000) % 1024 := Nat.and_two_pow_sub_one_eq_mod _ 10
  rw [unitsOf, units, h]
  simp only [Nat.shiftRight_eq_div_pow, Nat.reducePow, Nat.lt_succ_iff]

/-- A continuation byte adds its bits. -/
theorem shiftLeft_or (cp c : Nat) : cp <<< 6 ||| c &&& 0x3F = cp * 64 + c % 64 := by
  have h : 2 ^ 6 * cp ||| c % 64 = 2 ^ 6 * cp + c % 64 :=
    (Nat.two_pow_add_eq_or_of_lt (Nat.mod_lt _ (by decide)) _).symm
  rw [and_3F, Nat.shiftLeft_eq, Nat.mul_comm, h]

end bits

/-! ## Reading the text -/

section encode
variable {wide : Chars} {i k m n : Nat} {u : Code} {rest : List Code} {w : List Byte} {utf8 : OpenArray Byte}
  {allowed : Fault → Prop}

/-- One point is read, and what is left are the points behind it. -/
theorem combine_eq (h : wide.text.drop i = u :: rest) :
    ∃ p both, combine wide u.toNat (i + 1) = .ok (p, both) ∧ i + 1 + both.toNat ≤ wide.text.length ∧
      points (u :: rest) = p :: points (wide.text.drop (i + 1 + both.toNat)) := by
  obtain ⟨-, -, hi, hrest⟩ := get_of_drop h
  have hle := le_of_drop_cons h
  have hhigh : 0xD800 ≤ u.toNat ∧ u.toNat ≤ 0xDBFF ↔ High u.toNat := by
    unfold High
    omega
  cases rest with
  | nil =>
    refine ⟨u.toNat, false, ?_, hle, by rw [Bool.toNat_false, Nat.add_zero, hrest, points, points]⟩
    rw [combine]
    split_ifs with hsur
    · rw [get_of_drop_nil hrest hle (le_high_iff.1 hsur.2.2)]
      rfl
    · rfl
  | cons v rest =>
    obtain ⟨hget, hnul, hi', hrest'⟩ := get_of_drop hrest
    have hlow : v ≠ nul ∧ 0xDC00 ≤ v.toNat ∧ v.toNat ≤ 0xDFFF ↔ Low v.toNat := by
      rw [and_iff_right hnul, Low, Nat.lt_succ_iff]
    rw [points, combine, hget]
    by_cases hpair : High u.toNat ∧ Low v.toNat
    · refine ⟨pair u.toNat v.toNat, true, ?_, le_of_drop_cons hrest, ?_⟩
      · have hsur := hhigh.2 hpair.1
        rw [if_pos ⟨hsur.1, hsur.2, le_high_iff.2 hi'⟩]
        exact if_pos (hlow.2 hpair.2)
      · rw [if_pos hpair, Bool.toNat_true, hrest']
    · refine ⟨u.toNat, false, ?_, hle, ?_⟩
      · by_cases hsur : 0xD800 ≤ u.toNat ∧ u.toNat ≤ 0xDBFF ∧ i + 1 ≤ wide.high
        · rw [if_pos hsur]
          exact if_neg fun h => hpair ⟨hhigh.1 ⟨hsur.1, hsur.2.1⟩, hlow.1 h⟩
        · rw [if_neg hsur]
      · rw [if_neg hpair, Bool.toNat_false, Nat.add_zero, hrest]

theorem lengthLoop_eq (wide : Chars) (i n : Nat) (hi : i ≤ wide.text.length) :
    lengthLoop wide i n = .ok (n + ((points (wide.text.drop i)).flatMap form).length) := by
  rw [lengthLoop]
  cases h : wide.text.drop i with
  | nil =>
    split_ifs with hsize
    · rw [get_of_drop_nil h hi hsize]
      rfl
    · rfl
  | cons u rest =>
    obtain ⟨hget, hnul, hsize, -⟩ := get_of_drop h
    obtain ⟨p, both, hcombine, hle, hpoints⟩ := combine_eq h
    have ih := lengthLoop_eq wide (i + 1 + both.toNat) (n + formLength p) hle
    rw [if_pos hsize, hget, hpoints, List.flatMap_cons, List.length_append, ← Nat.add_assoc, ← formLength_eq, ← ih]
    change (if u = nul then _ else _) = _
    rw [if_neg hnul, hcombine]
    rfl
termination_by wide.size - i

theorem encodeLoop_runs (wide : Chars) (i : Nat) (hi : i ≤ wide.text.length) {w : List Byte} {k : Nat}
    {utf8 : OpenArray Byte} (h : OpenArray.Wrote w n k utf8) :
    Runs allowed (encodeLoop wide i k utf8)
      (OpenArray.Puts w ((points (wide.text.drop i)).flatMap form) n) := by
  rw [encodeLoop]
  cases hdrop : wide.text.drop i with
  | nil =>
    split_ifs with hsize
    · rw [get_of_drop_nil hdrop hi hsize]
      exact Runs.ok (OpenArray.Puts.nil h)
    · exact Runs.ok (OpenArray.Puts.nil h)
  | cons u rest =>
    obtain ⟨hget, hnul, hsize, -⟩ := get_of_drop hdrop
    obtain ⟨p, both, hcombine, hle, hpoints⟩ := combine_eq hdrop
    have hp : p < 0x110000 := points_lt _ p (hpoints ▸ List.mem_cons_self)
    rw [if_pos hsize, hget, hpoints, List.flatMap_cons]
    change Runs allowed (if u = nul then _ else _) _
    rw [if_neg hnul, hcombine]
    refine OpenArray.Puts.bind ?_ fun k utf8 h' => encodeLoop_runs wide (i + 1 + both.toNat) hle h'
    rw [← bytesOf_eq (hp.trans (by decide))]
    exact OpenArray.pushAll_runs h _
termination_by wide.size - i

/-- The bytes of a text. -/
def bytes (text : List Code) : List Byte := (points text).flatMap form

theorem length_eq_bytes (wide : Chars) : length wide = .ok (bytes wide.text).length := by
  rw [length, lengthLoop_eq wide 0 0 (Nat.zero_le _), Nat.zero_add]
  rfl

theorem encode_runs (wide : Chars) (utf8 : OpenArray Byte) (n : Nat) :
    Runs allowed (encode wide utf8 n) fun r =>
      if (bytes wide.text).length ≤ utf8.size then
        r.1 = true ∧ r.2.1 = (bytes wide.text).length ∧ r.2.2.size = utf8.size ∧
          r.2.2.cells.take r.2.1 = bytes wide.text
      else r.1 = false ∧ r.2.1 = n := by
  refine (encodeLoop_runs wide 0 (Nat.zero_le _) (OpenArray.Wrote.start utf8)).bind ?_
  rintro ⟨ok, k, out⟩ h
  rw [OpenArray.Puts, List.nil_append, List.drop_zero] at h
  refine Runs.ok ?_
  by_cases hfits : (bytes wide.text).length ≤ utf8.size
  · rw [if_pos hfits]
    rw [bytes] at hfits ⊢
    rw [if_pos hfits] at h
    obtain ⟨rfl, hwrote⟩ := h
    exact ⟨rfl, hwrote.count, hwrote.size, hwrote.cells⟩
  · rw [if_neg hfits]
    rw [bytes] at hfits
    rw [if_neg hfits] at h
    obtain rfl : ok = false := h
    exact ⟨rfl, rfl⟩

end encode

/-! ## Reading the bytes -/

section decode
variable {utf8 : OpenArray Byte} {wide : Chars} {bs : List Byte} {i k m n : Nat} {b : Byte} {rest : List Byte}
  {w : List Code} {allowed : Fault → Prop}

theorem continuation_eq (hn : n ≤ utf8.size) (nb i cp : Nat) :
    continuation utf8 n nb i cp =
      .ok (if nb ≤ ((utf8.cells.take n).drop i).length ∧ ∀ c ∈ ((utf8.cells.take n).drop i).take nb, Trail c then
        some (value cp (((utf8.cells.take n).drop i).take nb)) else none) := by
  induction nb generalizing i cp with
  | zero =>
    rw [if_pos ⟨Nat.zero_le _, fun c hc => absurd hc List.not_mem_nil⟩]
    rfl
  | succ nb ih =>
    cases h : (utf8.cells.take n).drop i with
    | nil =>
      rw [if_neg (by simp), continuation, if_pos (OpenArray.le_of_drop_take_nil hn h)]
    | cons c rest =>
      obtain ⟨hget, hi, hrest⟩ := OpenArray.get_of_drop_take h
      rw [continuation, if_neg (Nat.not_le.2 hi), hget]
      change (if _ then _ else _) = _
      rw [ih, hrest, shiftLeft_or]
      simp only [List.length_cons, List.take_succ_cons, List.forall_mem_cons, Nat.add_le_add_iff_right]
      by_cases hcont : Trail c
      · rw [if_neg (by unfold Trail at hcont; omega)]
        simp only [hcont, true_and]
        rfl
      · rw [if_pos (by unfold Trail at hcont; omega), if_neg fun h => hcont h.2.1]

/-- The points are written as units, if the bytes have any and these fit. -/
def Decodes (ps : Option (List Nat)) (w : List Code) (m : Nat) (r : Bool × Nat × Chars) : Prop :=
  ps.elim (r.1 = false) fun ps => Puts w (ps.flatMap units) m r

theorem decodeLoop_runs (hn : n ≤ utf8.size) (i : Nat) {w : List Code} {k : Nat} {wide : Chars}
    (h : Wrote w m k wide) :
    Runs allowed (decodeLoop utf8 n i k wide) (Decodes (readPoints ((utf8.cells.take n).drop i)) w m) := by
  rw [decodeLoop]
  cases hdrop : (utf8.cells.take n).drop i with
  | nil =>
    rw [if_neg (Nat.not_lt.2 (OpenArray.le_of_drop_take_nil hn hdrop)), readPoints]
    exact Runs.ok (Puts.nil h)
  | cons b rest =>
    obtain ⟨hget, hi, hrest⟩ := OpenArray.get_of_drop_take hdrop
    rw [if_pos hi, hget, readPoints]
    refine Runs.bind (Q := fun x => x = b) rfl fun x hx => ?_
    rw [show x = b from hx, leadOf_eq]
    cases hlead : lead b.toNat with
    | none => exact Runs.ok rfl
    | some x =>
      obtain ⟨v, nb⟩ := x
      dsimp only
      rw [continuation_eq hn, hrest]
      by_cases hcs : nb ≤ rest.length ∧ ∀ c ∈ rest.take nb, Trail c
      · rw [if_pos hcs, if_pos hcs]
        have ih : ∀ w k wide, Wrote w m k wide → Runs allowed (decodeLoop utf8 n (i + 1 + nb) k wide)
            (Decodes (readPoints (rest.drop nb)) w m) := by
          intro w k wide h'
          rw [← hrest, List.drop_drop]
          exact decodeLoop_runs hn (i + 1 + nb) h'
        cases hread : readPoints (rest.drop nb) with
        | none =>
          rw [hread] at ih
          refine Runs.bind (Q := fun p => p = some (value v (rest.take nb))) rfl fun p hp => ?_
          rw [show p = _ from hp]
          dsimp only
          refine (putAll_runs h _).bind ?_
          rintro ⟨ok, k, wide⟩ hput
          rw [Puts] at hput
          cases ok with
          | false => exact Runs.ok rfl
          | true =>
            split_ifs at hput with hfits
            have hrun := ih _ k wide hput.2
            exact hrun
        | some ps =>
          rw [hread] at ih
          refine Runs.bind (Q := fun p => p = some (value v (rest.take nb))) rfl fun p hp => ?_
          rw [show p = _ from hp]
          dsimp only
          rw [unitsOf_eq]
          exact Puts.bind (putAll_runs h _) fun k wide h' => ih _ k wide h'
      · rw [if_neg hcs, if_neg hcs]
        exact Runs.ok rfl
termination_by n - i

theorem decode_runs (hn : n ≤ utf8.size) (wide : Chars) :
    Runs allowed (decode utf8 n wide) fun r =>
      (r.1 = true ↔ ∃ ps, readPoints (utf8.cells.take n) = some ps ∧ (ps.flatMap units).length < wide.size) ∧
        (r.1 = true → ∀ ps, readPoints (utf8.cells.take n) = some ps → ps.flatMap units ++ [nul] <+: r.2.cells) := by
  have hloop : Runs allowed (decodeLoop utf8 n 0 0 wide)
      (Decodes (readPoints ((utf8.cells.take n).drop 0)) [] wide.size) := decodeLoop_runs hn 0 (Wrote.start wide)
  rw [List.drop_zero] at hloop
  rw [decode]
  cases hread : readPoints (utf8.cells.take n) with
  | none =>
    rw [hread] at hloop
    refine hloop.bind ?_
    rintro ⟨ok, k, out⟩ h
    obtain rfl : ok = false := h
    exact Runs.ok ⟨by simp, fun hok => absurd hok Bool.false_ne_true⟩
  | some ps =>
    rw [hread] at hloop
    refine (finish_runs hloop).mono fun r ⟨hok, hcells⟩ => ⟨?_, fun h ps' hps => ?_⟩
    · rw [hok]
      refine ⟨fun h => ⟨ps, rfl, h⟩, ?_⟩
      rintro ⟨ps', hps, hlt⟩
      obtain rfl := Option.some.inj hps
      exact hlt
    · obtain rfl := Option.some.inj hps
      exact (hcells h).1

end decode

/-! ## There and back -/

section inverse
variable {utf8 utf8₂ : OpenArray Byte} {wide text : Chars} {bs : List Byte} {n n₂ : Nat} {ps : List Nat}

theorem nul_mem_units {p : Nat} (hp : p < 0x110000) (h : nul ∈ units p) : p = 0 := by
  have hnat : ∀ m, m < 2 ^ 16 → nul = BitVec.ofNat 16 m → m = 0 := by
    intro m hm h
    have hzero := congrArg BitVec.toNat h
    rw [BitVec.toNat_ofNat, Nat.mod_eq_of_lt hm] at hzero
    exact hzero.symm
  rw [units] at h
  split_ifs at h with hsmall
  · exact hnat p hsmall (List.mem_singleton.1 h)
  · rcases List.mem_pair.1 h with h | h
    · exact absurd (hnat _ (by omega) h) (by omega)
    · exact absurd (hnat _ (by omega) h) (by omega)

theorem nul_notMem_units (hlt : ∀ p ∈ ps, p < 0x110000) (h : (0 : Byte) ∉ ps.flatMap form) :
    nul ∉ ps.flatMap units := by
  intro hnul
  obtain ⟨p, hp, hmem⟩ := List.mem_flatMap.1 hnul
  obtain rfl := nul_mem_units (hlt p hp) hmem
  exact h (List.mem_flatMap.2 ⟨0, hp, by decide⟩)

/-- Every text is encoded as the forms of its points, if these fit, and decoded again. -/
theorem encode_decode (w : Chars) (utf8 : OpenArray Byte) (n : Nat) :
    length w = .ok (bytes w.text).length ∧
      ∃ ok m out, encode w utf8 n = .ok (ok, m, out) ∧ (ok = true ↔ (bytes w.text).length ≤ utf8.size) ∧
        (ok = true → m = (bytes w.text).length ∧ out.cells.take m = bytes w.text ∧
          ∀ wide : Chars, w.text.length < wide.size →
            ∃ wide', decode out m wide = .ok (true, wide') ∧ wide'.text = w.text) := by
  refine ⟨length_eq_bytes w, ?_⟩
  obtain ⟨⟨ok, m, out⟩, hrun, h⟩ := (encode_runs w utf8 n).succeeds
  refine ⟨ok, m, out, hrun, ?_⟩
  by_cases hfits : (bytes w.text).length ≤ utf8.size
  · rw [if_pos hfits] at h
    obtain ⟨hok, hm, hsize, hbytes⟩ := h
    dsimp only at hok hm hsize hbytes
    refine ⟨by simp only [hok, hfits], fun _ => ⟨hm, hbytes, fun wide hroom => ?_⟩⟩
    obtain ⟨⟨ok', wide'⟩, hrun', hiff, hcells⟩ := (decode_runs (show m ≤ out.size by omega) wide).succeeds
    rw [hbytes, bytes, readPoints_forms (points_lt _)] at hiff hcells
    have hok' : ok' = true := hiff.2 ⟨_, rfl, by rwa [points_units]⟩
    obtain ⟨rest, hrest⟩ := hcells hok' _ rfl
    rw [points_units, List.append_assoc] at hrest
    exact ⟨wide', by rw [hrun', hok'], text_of_append hrest.symm w.nul_notMem_text⟩
  · rw [if_neg hfits] at h
    obtain ⟨hok, -⟩ := h
    dsimp only at hok
    rw [hok]
    exact ⟨by simp only [Bool.false_eq_true, hfits], fun h => absurd h Bool.false_ne_true⟩

/-- The text is encoded as these bytes. -/
def GivesBack (text : Chars) (bs : List Byte) : Prop :=
  ∀ (out : OpenArray Byte) (n : Nat), bs.length ≤ out.size →
    ∃ out', encode text out n = .ok (true, bs.length, out') ∧ out'.cells.take bs.length = bs

/-- Every lead byte has its continuation bytes, and there is room for the units and a NUL. -/
def Accepted (bs : List Byte) (room : Nat) : Prop :=
  ∃ ps, readPoints bs = some ps ∧ (ps.flatMap units).length < room

theorem givesBack_iff (text : Chars) {bs : List Byte} (hbs : bs.length < 2 ^ 63) :
    GivesBack text bs ↔ bytes text.text = bs := by
  refine ⟨fun h => ?_, fun h out n hsize => ?_⟩
  · obtain ⟨out, hout⟩ : ∃ out : OpenArray Byte, bs.length ≤ out.size := by
      cases bs with
      | nil => exact ⟨⟨[0], List.cons_ne_nil _ _, by decide⟩, Nat.zero_le _⟩
      | cons b bs => exact ⟨⟨b :: bs, List.cons_ne_nil _ _, hbs⟩, le_rfl⟩
    obtain ⟨out', hrun, hcells⟩ := h out 0 hout
    have hspec : Runs (fun _ => False) (encode text out 0) _ := encode_runs text out 0
    rw [hrun] at hspec
    change (if _ then _ else _) at hspec
    split_ifs at hspec with hfits
    · rw [← hspec.2.2.2]
      exact hcells
    · exact hspec.1.elim
  · obtain ⟨⟨ok, m, out'⟩, hrun, hspec⟩ := (encode_runs text out n).succeeds
    rw [h, if_pos hsize] at hspec
    obtain ⟨hok, hm, -, hcells⟩ := hspec
    dsimp only at hok hm hcells
    exact ⟨out', by rw [hrun, hok, hm], by rw [← hm, hcells]⟩

theorem length_take_lt (utf8 : OpenArray Byte) (n : Nat) : (utf8.cells.take n).length < 2 ^ 63 :=
  (List.length_take_le' n utf8.cells).trans_lt utf8.small

/-- Clean bytes that are accepted are those of the text. -/
theorem bytes_of_clean (hz : 0 ∉ bs) (hclean : Clean bs) (hread : readPoints bs = some ps)
    (htext : ps.flatMap units ++ [nul] <+: text.cells) : bytes text.text = bs := by
  obtain ⟨hbs, hlt, hpair⟩ := eq_forms_of_clean hread hclean
  obtain ⟨rest, hrest⟩ := htext
  rw [List.append_assoc] at hrest
  have htext : text.text = ps.flatMap units :=
    text_of_append hrest.symm (nul_notMem_units hlt (hbs ▸ hz))
  rw [bytes, htext, points_flatMap_units hlt hpair, ← hbs]

/-- What is decoded gives the bytes back just if these are clean or not accepted, and then no other such bytes
give the same text. -/
theorem decode_givesBack (hn : n ≤ utf8.size) (hz : 0 ∉ utf8.cells.take n) (hn₂ : n₂ ≤ utf8₂.size)
    (hz₂ : 0 ∉ utf8₂.cells.take n₂) (wide wide₂ : Chars) :
    ∃ ok text ok₂ text₂, decode utf8 n wide = .ok (ok, text) ∧ decode utf8₂ n₂ wide₂ = .ok (ok₂, text₂) ∧
      ((ok = true → GivesBack text (utf8.cells.take n)) ↔
        (Accepted (utf8.cells.take n) wide.size → Clean (utf8.cells.take n))) ∧
      (Clean (utf8.cells.take n) → Clean (utf8₂.cells.take n₂) → ok = true → ok₂ = true →
        text.text = text₂.text → utf8.cells.take n = utf8₂.cells.take n₂) := by
  obtain ⟨⟨ok, text⟩, hrun, hok, htext⟩ := (decode_runs hn wide).succeeds
  obtain ⟨⟨ok₂, text₂⟩, hrun₂, hok₂, htext₂⟩ := (decode_runs hn₂ wide₂).succeeds
  dsimp only at hok htext hok₂ htext₂
  refine ⟨ok, text, ok₂, text₂, hrun, hrun₂, ?_, fun hclean hclean₂ h h₂ heq => ?_⟩
  · rw [givesBack_iff text (length_take_lt utf8 n), Accepted, ← hok]
    refine forall_congr' fun h => ⟨fun hback => ?_, fun hclean => ?_⟩
    · rw [← hback]
      exact clean_forms (points_lt _) (points_noPair _)
    · obtain ⟨ps, hread, -⟩ := hok.1 h
      exact bytes_of_clean hz hclean hread (htext h ps hread)
  · obtain ⟨ps, hread, -⟩ := hok.1 h
    obtain ⟨ps₂, hread₂, -⟩ := hok₂.1 h₂
    rw [← bytes_of_clean hz hclean hread (htext h ps hread), heq,
      bytes_of_clean hz₂ hclean₂ hread₂ (htext₂ h₂ ps₂ hread₂)]

/-- An `A` in two bytes. -/
def overlongA : OpenArray Byte := ⟨[0xC1, 0x81], List.cons_ne_nil _ _, by decide⟩

def fourChars : Chars := ⟨[nul, nul, nul, nul], List.cons_ne_nil _ _, by decide⟩

/-- The overlong form is decoded, and the text is encoded as one byte. -/
theorem decode_overlong :
    ∃ text, decode overlongA 2 fourChars = .ok (true, text) ∧ text.text = [code 'A'] ∧
      ¬ GivesBack text (overlongA.cells.take 2) := by
  refine ⟨⟨[code 'A', nul, nul, nul], List.cons_ne_nil _ _, by decide⟩, by decide +kernel, by decide, ?_⟩
  rw [givesBack_iff _ (by decide)]
  decide +kernel

/-- The bytes of an accented letter, and those of the overlong one. -/
theorem decode_givesBack_accent :
    ∃ ok text ok₂ text₂, decode ⟨[0xC3, 0xA9], List.cons_ne_nil _ _, by decide⟩ 2 fourChars = .ok (ok, text) ∧
      decode overlongA 2 fourChars = .ok (ok₂, text₂) ∧ (ok = true → GivesBack text [0xC3, 0xA9]) := by
  obtain ⟨ok, text, ok₂, text₂, h, h₂, hiff, -⟩ :=
    @decode_givesBack ⟨[0xC3, 0xA9], List.cons_ne_nil _ _, by decide⟩ overlongA 2 2 (by decide) (by decide)
      (by decide) (by decide) fourChars fourChars
  exact ⟨ok, text, ok₂, text₂, h, h₂, hiff.2 fun _ => by decide⟩

end inverse

end NewM2.Winrt.Utf8
