import Mathlib
import NewM2.Lib.Chars

/-!
# UTF-8 of code units

A text of UTF-16 code units is a row of code points: a high surrogate with a low one behind it is a point
beyond the basic plane, and any other unit, a lone surrogate too, is a point of its own (`points`, `units`).
`form` are the bytes of a point. `readPoints` takes sequences of a lead byte and as many continuation bytes as it
asks for, which need not be the shortest ones and may give more than the last point. Bytes are `Clean` if
there is none of that in them and no pair of surrogates: then, and only then, they are the forms of the
points of a text (`eq_forms_of_clean`, `clean_forms`). -/

namespace NewM2.Wtf8

abbrev Byte := BitVec 8

def High (n : Nat) : Prop := 0xD800 ≤ n ∧ n < 0xDC00

def Low (n : Nat) : Prop := 0xDC00 ≤ n ∧ n < 0xE000

instance (n : Nat) : Decidable (High n) := inferInstanceAs (Decidable (_ ∧ _))

instance (n : Nat) : Decidable (Low n) := inferInstanceAs (Decidable (_ ∧ _))

/-- The point of a pair of surrogates. -/
def pair (hi lo : Nat) : Nat := 0x10000 + (hi - 0xD800) * 0x400 + (lo - 0xDC00)

def points : List Code → List Nat
  | [] => []
  | [u] => [u.toNat]
  | u :: v :: us =>
    if High u.toNat ∧ Low v.toNat then pair u.toNat v.toNat :: points us else u.toNat :: points (v :: us)

def units (p : Nat) : List Code :=
  if p < 0x10000 then [BitVec.ofNat 16 p]
  else [BitVec.ofNat 16 (0xD800 + (p - 0x10000) / 0x400), BitVec.ofNat 16 (0xDC00 + (p - 0x10000) % 0x400)]

/-- The bytes of a point, in as few of them as possible. -/
def form (p : Nat) : List Byte :=
  if p < 0x80 then [BitVec.ofNat 8 p]
  else if p < 0x800 then [BitVec.ofNat 8 (0xC0 + p / 64), BitVec.ofNat 8 (0x80 + p % 64)]
  else if p < 0x10000 then
    [BitVec.ofNat 8 (0xE0 + p / 4096), BitVec.ofNat 8 (0x80 + p / 64 % 64), BitVec.ofNat 8 (0x80 + p % 64)]
  else [BitVec.ofNat 8 (0xF0 + p / 262144), BitVec.ofNat 8 (0x80 + p / 4096 % 64),
    BitVec.ofNat 8 (0x80 + p / 64 % 64), BitVec.ofNat 8 (0x80 + p % 64)]

example : form 0x20AC = [0xE2, 0x82, 0xAC] := by decide

/-- Of a lead byte, its bits of the point and how many bytes go with it. -/
def lead (b : Nat) : Option (Nat × Nat) :=
  if b < 0x80 then some (b, 0)
  else if b < 0xC0 then none
  else if b < 0xE0 then some (b % 32, 1)
  else if b < 0xF0 then some (b % 16, 2)
  else if b < 0xF8 then some (b % 8, 3)
  else none

/-- A continuation byte. -/
def Trail (b : Byte) : Prop := 0x80 ≤ b.toNat ∧ b.toNat < 0xC0

instance (b : Byte) : Decidable (Trail b) := inferInstanceAs (Decidable (_ ∧ _))

/-- The bits of the continuation bytes behind those of the lead byte. -/
def value (v : Nat) (cs : List Byte) : Nat := cs.foldl (fun v c => v * 64 + c.toNat % 64) v

/-- The points of bytes that are sequences of a lead byte and the continuation bytes it asks for. -/
def readPoints : List Byte → Option (List Nat)
  | [] => some []
  | b :: bs =>
    match lead b.toNat with
    | none => none
    | some (v, n) =>
      if n ≤ bs.length ∧ ∀ c ∈ bs.take n, Trail c then (readPoints (bs.drop n)).map (value v (bs.take n) :: ·) else none
termination_by bs => bs.length
decreasing_by simp only [List.length_drop, List.length_cons]; omega

/-! ## Sequences that no point has -/

/-- A sequence that begins so has a shorter form. -/
def Overlong (b c : Nat) : Prop := b = 0xC0 ∨ b = 0xC1 ∨ b = 0xE0 ∧ c < 0xA0 ∨ b = 0xF0 ∧ c < 0x90

/-- A sequence that begins so is beyond the last point. -/
def Beyond (b c : Nat) : Prop := b = 0xF4 ∧ 0x90 ≤ c ∨ 0xF5 ≤ b

/-- The form of a high surrogate begins so. -/
def HighForm (b c : Nat) : Prop := b = 0xED ∧ 0xA0 ≤ c ∧ c < 0xB0

/-- The form of a low surrogate begins so. -/
def LowForm (b c : Nat) : Prop := b = 0xED ∧ 0xB0 ≤ c

def BeginsLow : List Byte → Prop
  | b :: c :: _ => LowForm b.toNat c.toNat
  | _ => False

/-- What no text has the bytes of begins here. -/
def Bad : List Byte → Prop
  | b :: c :: rest =>
    Overlong b.toNat c.toNat ∨ Beyond b.toNat c.toNat ∨ HighForm b.toNat c.toNat ∧ BeginsLow (rest.drop 1)
  | _ => False

instance (b c : Nat) : Decidable (Overlong b c) := inferInstanceAs (Decidable (_ ∨ _))

instance (b c : Nat) : Decidable (Beyond b c) := inferInstanceAs (Decidable (_ ∨ _))

instance (b c : Nat) : Decidable (HighForm b c) := inferInstanceAs (Decidable (_ ∧ _))

instance (b c : Nat) : Decidable (LowForm b c) := inferInstanceAs (Decidable (_ ∧ _))

instance : DecidablePred BeginsLow
  | _ :: _ :: _ => inferInstanceAs (Decidable (LowForm _ _))
  | [_] => isFalse id
  | [] => isFalse id

instance : DecidablePred Bad
  | _ :: _ :: _ => inferInstanceAs (Decidable (_ ∨ _))
  | [_] => isFalse id
  | [] => isFalse id

def Clean (bs : List Byte) : Prop := ∀ s ∈ bs.tails, ¬ Bad s

instance (bs : List Byte) : Decidable (Clean bs) := inferInstanceAs (Decidable (∀ s ∈ bs.tails, ¬ Bad s))

/-! ## Units and points -/

theorem units_toNat (u : Code) : units u.toNat = [u] := by
  rw [units, if_pos u.isLt, BitVec.ofNat_toNat, BitVec.setWidth_eq]

theorem units_pair {u v : Code} (hu : High u.toNat) (hv : Low v.toNat) :
    units (pair u.toNat v.toNat) = [u, v] := by
  obtain ⟨hu₁, hu₂⟩ := hu
  obtain ⟨hv₁, hv₂⟩ := hv
  have hhi : 0xD800 + (pair u.toNat v.toNat - 0x10000) / 0x400 = u.toNat := by
    unfold pair
    omega
  have hlo : 0xDC00 + (pair u.toNat v.toNat - 0x10000) % 0x400 = v.toNat := by
    unfold pair
    omega
  have hbig : ¬ pair u.toNat v.toNat < 0x10000 := by
    unfold pair
    omega
  rw [units, if_neg hbig, hhi, hlo]
  simp

theorem points_units (us : List Code) : (points us).flatMap units = us := by
  induction us using points.induct with
  | case1 => rfl
  | case2 u => rw [points, List.flatMap_singleton, units_toNat]
  | case3 u v us h ih => rw [points, if_pos h, List.flatMap_cons, ih, units_pair h.1 h.2]; rfl
  | case4 u v us h ih => rw [points, if_neg h, List.flatMap_cons, ih, units_toNat]; rfl

/-- No low surrogate behind a high one: they would be one point. -/
def NoPair (ps : List Nat) : Prop := ps.IsChain fun p q => ¬ (High p ∧ Low q)

theorem High.lt {n : Nat} (h : High n) : n < 0x10000 := h.2.trans (by decide)

theorem pair_not_low (u v : Nat) : ¬ Low (pair u v) := by
  rintro ⟨-, h⟩
  unfold pair at h
  omega

theorem pair_not_high (u v : Nat) : ¬ High (pair u v) := by
  rintro ⟨-, h⟩
  unfold pair at h
  omega

theorem points_lt (us : List Code) : ∀ p ∈ points us, p < 0x110000 := by
  induction us using points.induct with
  | case1 => exact fun p hp => absurd hp List.not_mem_nil
  | case2 u =>
    rw [points, List.forall_mem_singleton]
    exact u.isLt.trans (by decide)
  | case3 u v us h ih =>
    rw [points, if_pos h, List.forall_mem_cons]
    refine ⟨?_, ih⟩
    obtain ⟨⟨-, hu⟩, -, hv⟩ := h
    unfold pair
    omega
  | case4 u v us h ih =>
    rw [points, if_neg h, List.forall_mem_cons]
    exact ⟨u.isLt.trans (by decide), ih⟩

/-- The first point is the first unit, or no surrogate. -/
theorem head_points (u : Code) (us : List Code) :
    ∃ p ps, points (u :: us) = p :: ps ∧ (Low p → Low u.toNat) := by
  cases us with
  | nil => exact ⟨_, _, rfl, id⟩
  | cons v us =>
    rw [points]
    split_ifs
    · exact ⟨_, _, rfl, fun h => absurd h (pair_not_low _ _)⟩
    · exact ⟨_, _, rfl, id⟩

theorem points_noPair (us : List Code) : NoPair (points us) := by
  induction us using points.induct with
  | case1 => exact .nil
  | case2 u => exact .singleton _
  | case3 u v us h ih =>
    rw [points, if_pos h]
    exact List.isChain_cons.2 ⟨fun q _ hq => pair_not_high _ _ hq.1, ih⟩
  | case4 u v us h ih =>
    rw [points, if_neg h]
    refine List.isChain_cons.2 ⟨fun q hq hpair => h ⟨hpair.1, ?_⟩, ih⟩
    obtain ⟨p, ps, hps, hlow⟩ := head_points v us
    rw [hps, List.head?_cons] at hq
    exact hlow (Option.some.inj hq ▸ hpair.2)

/-- The points of the units are the points. -/
theorem points_flatMap_units {ps : List Nat} (hlt : ∀ p ∈ ps, p < 0x110000) (hpair : NoPair ps) :
    points (ps.flatMap units) = ps := by
  induction ps with
  | nil => rfl
  | cons p ps ih =>
    obtain ⟨hp, hps⟩ := List.forall_mem_cons.1 hlt
    obtain ⟨hhead, hchain⟩ := List.isChain_cons.1 hpair
    have ih' := ih hps hchain
    rw [List.flatMap_cons, units]
    split_ifs with hsmall
    · have hnat : (BitVec.ofNat 16 p).toNat = p := by
        rw [BitVec.toNat_ofNat]
        exact Nat.mod_eq_of_lt hsmall
      cases hus : ps.flatMap units with
      | nil =>
        rw [hus] at ih'
        rw [← ih', List.append_nil]
        change [(BitVec.ofNat 16 p).toNat] = [p]
        rw [hnat]
      | cons v us =>
        rw [hus] at ih'
        have hno : ¬ (High p ∧ Low v.toNat) := by
          rintro ⟨hhigh, hlow⟩
          -- the low surrogate would be the next point
          cases us with
          | nil =>
            rw [points] at ih'
            exact hhead v.toNat (by rw [← ih']; rfl) ⟨hhigh, hlow⟩
          | cons w us =>
            have hv : ¬ (High v.toNat ∧ Low w.toNat) := fun h => by
              have h₁ := h.1.2
              have h₂ := hlow.1
              omega
            rw [points, if_neg hv] at ih'
            exact hhead v.toNat (by rw [← ih']; rfl) ⟨hhigh, hlow⟩
        rw [List.singleton_append, points, hnat, if_neg hno, ih']
    · have hhi : (BitVec.ofNat 16 (0xD800 + (p - 0x10000) / 0x400)).toNat = 0xD800 + (p - 0x10000) / 0x400 := by
        rw [BitVec.toNat_ofNat]
        omega
      have hlo : (BitVec.ofNat 16 (0xDC00 + (p - 0x10000) % 0x400)).toNat = 0xDC00 + (p - 0x10000) % 0x400 := by
        rw [BitVec.toNat_ofNat]
        omega
      have hsur : High (0xD800 + (p - 0x10000) / 0x400) ∧ Low (0xDC00 + (p - 0x10000) % 0x400) := by
        refine ⟨⟨?_, ?_⟩, ?_, ?_⟩ <;> omega
      have hval : pair (0xD800 + (p - 0x10000) / 0x400) (0xDC00 + (p - 0x10000) % 0x400) = p := by
        unfold pair
        omega
      rw [List.cons_append, List.singleton_append, points, hhi, hlo, if_pos hsur, hval, ih']

/-! ## Forms and sequences -/

theorem byte_toNat {n : Nat} (h : n < 256) : (BitVec.ofNat 8 n).toNat = n := by
  rw [BitVec.toNat_ofNat]
  exact Nat.mod_eq_of_lt h

theorem cont_ofNat (n : Nat) : Trail (BitVec.ofNat 8 (0x80 + n % 64)) := by
  rw [Trail, byte_toNat (by omega)]
  omega

theorem cont_toNat_mod (n : Nat) : (BitVec.ofNat 8 (0x80 + n % 64)).toNat % 64 = n % 64 := by
  rw [byte_toNat (by omega)]
  omega

/-- A form is a lead byte with its continuation bytes. -/
theorem form_eq {p : Nat} (h : p < 0x200000) :
    ∃ b cs v, form p = b :: cs ∧ lead b.toNat = some (v, cs.length) ∧ (∀ c ∈ cs, Trail c) ∧ value v cs = p := by
  rw [form]
  by_cases h₁ : p < 0x80
  · rw [if_pos h₁]
    refine ⟨_, _, p, rfl, ?_, by simp, rfl⟩
    rw [byte_toNat (by omega), lead, if_pos h₁]
    rfl
  rw [if_neg h₁]
  by_cases h₂ : p < 0x800
  · rw [if_pos h₂]
    refine ⟨_, _, p / 64, rfl, ?_, ?_, ?_⟩
    · rw [byte_toNat (by omega), lead, if_neg (by omega), if_neg (by omega), if_pos (by omega)]
      simp only [Option.some.injEq, Prod.mk.injEq]
      exact ⟨by omega, rfl⟩
    · rw [List.forall_mem_singleton]
      exact cont_ofNat p
    · rw [value, List.foldl_cons, List.foldl_nil, cont_toNat_mod]
      omega
  rw [if_neg h₂]
  by_cases h₃ : p < 0x10000
  · rw [if_pos h₃]
    refine ⟨_, _, p / 4096, rfl, ?_, ?_, ?_⟩
    · rw [byte_toNat (by omega), lead, if_neg (by omega), if_neg (by omega), if_neg (by omega), if_pos (by omega)]
      simp only [Option.some.injEq, Prod.mk.injEq]
      exact ⟨by omega, rfl⟩
    · simp only [List.forall_mem_cons]
      exact ⟨cont_ofNat _, cont_ofNat _, by simp⟩
    · simp only [value, List.foldl_cons, List.foldl_nil, cont_toNat_mod]
      omega
  · rw [if_neg h₃]
    refine ⟨_, _, p / 262144, rfl, ?_, ?_, ?_⟩
    · rw [byte_toNat (by omega), lead, if_neg (by omega), if_neg (by omega), if_neg (by omega), if_neg (by omega),
        if_pos (by omega)]
      simp only [Option.some.injEq, Prod.mk.injEq]
      exact ⟨by omega, rfl⟩
    · simp only [List.forall_mem_cons]
      exact ⟨cont_ofNat _, cont_ofNat _, cont_ofNat _, by simp⟩
    · simp only [value, List.foldl_cons, List.foldl_nil, cont_toNat_mod]
      omega

theorem readPoints_cons {b : Byte} {cs rest : List Byte} {v : Nat} (hlead : lead b.toNat = some (v, cs.length))
    (hcont : ∀ c ∈ cs, Trail c) : readPoints (b :: (cs ++ rest)) = (readPoints rest).map (value v cs :: ·) := by
  rw [readPoints, hlead]
  dsimp only
  rw [List.take_left, List.drop_left, if_pos ⟨by rw [List.length_append]; omega, hcont⟩]

theorem readPoints_form {p : Nat} (h : p < 0x200000) (rest : List Byte) :
    readPoints (form p ++ rest) = (readPoints rest).map (p :: ·) := by
  obtain ⟨b, cs, v, hform, hlead, hcont, hvalue⟩ := form_eq h
  rw [hform, List.cons_append, readPoints_cons hlead hcont, hvalue]

/-- The points of forms are read back. -/
theorem readPoints_forms {ps : List Nat} (h : ∀ p ∈ ps, p < 0x110000) : readPoints (ps.flatMap form) = some ps := by
  induction ps with
  | nil => rw [List.flatMap_nil, readPoints]
  | cons p ps ih =>
    obtain ⟨hp, hps⟩ := List.forall_mem_cons.1 h
    rw [List.flatMap_cons, readPoints_form (by omega), ih hps, Option.map_some]

theorem eq_byte {b : Byte} {n : Nat} (h : n = b.toNat) : BitVec.ofNat 8 n = b := by
  rw [h, BitVec.ofNat_toNat, BitVec.setWidth_eq]

/-- The bytes of a form of two bytes, from the bits they carry. -/
theorem two_bytes {b c p : Nat} (hlo : 0xC0 ≤ b) (hhi : b < 0xE0) (hc : 0x80 ≤ c ∧ c < 0xC0)
    (hp : p = b % 32 * 64 + c % 64) : p < 0x800 ∧ 0xC0 + p / 64 = b ∧ 0x80 + p % 64 = c := by
  obtain ⟨v, rfl⟩ := Nat.exists_eq_add_of_le hlo
  obtain ⟨x, rfl⟩ := Nat.exists_eq_add_of_le hc.1
  have hv : v < 32 := by omega
  have hx : x < 64 := by omega
  rw [show (0xC0 + v) % 32 = v by omega, show (0x80 + x) % 64 = x by omega] at hp
  clear hlo hhi hc
  omega

/-- The bytes of a form of three bytes. -/
theorem three_bytes {b c d p : Nat} (hlo : 0xE0 ≤ b) (hhi : b < 0xF0) (hc : 0x80 ≤ c ∧ c < 0xC0)
    (hd : 0x80 ≤ d ∧ d < 0xC0) (hp : p = (b % 16 * 64 + c % 64) * 64 + d % 64) :
    p < 0x10000 ∧ 0xE0 + p / 4096 = b ∧ 0x80 + p / 64 % 64 = c ∧ 0x80 + p % 64 = d := by
  obtain ⟨v, rfl⟩ := Nat.exists_eq_add_of_le hlo
  obtain ⟨x, rfl⟩ := Nat.exists_eq_add_of_le hc.1
  obtain ⟨y, rfl⟩ := Nat.exists_eq_add_of_le hd.1
  have hv : v < 16 := by omega
  have hx : x < 64 := by omega
  have hy : y < 64 := by omega
  rw [show (0xE0 + v) % 16 = v by omega, show (0x80 + x) % 64 = x by omega, show (0x80 + y) % 64 = y by omega] at hp
  clear hlo hhi hc hd
  have hhead : p / 64 = v * 64 + x := by omega
  omega

/-- The bytes of a form of four bytes. -/
theorem four_bytes {b c d e p : Nat} (hlo : 0xF0 ≤ b) (hhi : b < 0xF8) (hc : 0x80 ≤ c ∧ c < 0xC0)
    (hd : 0x80 ≤ d ∧ d < 0xC0) (he : 0x80 ≤ e ∧ e < 0xC0)
    (hp : p = ((b % 8 * 64 + c % 64) * 64 + d % 64) * 64 + e % 64) :
    0xF0 + p / 262144 = b ∧ 0x80 + p / 4096 % 64 = c ∧ 0x80 + p / 64 % 64 = d ∧ 0x80 + p % 64 = e := by
  obtain ⟨v, rfl⟩ := Nat.exists_eq_add_of_le hlo
  obtain ⟨x, rfl⟩ := Nat.exists_eq_add_of_le hc.1
  obtain ⟨y, rfl⟩ := Nat.exists_eq_add_of_le hd.1
  obtain ⟨z, rfl⟩ := Nat.exists_eq_add_of_le he.1
  have hv : v < 8 := by omega
  have hx : x < 64 := by omega
  have hy : y < 64 := by omega
  have hz : z < 64 := by omega
  rw [show (0xF0 + v) % 8 = v by omega, show (0x80 + x) % 64 = x by omega, show (0x80 + y) % 64 = y by omega,
    show (0x80 + z) % 64 = z by omega] at hp
  clear hlo hhi hc hd he
  have hhead : p / 64 = (v * 64 + x) * 64 + y := by omega
  have hhead' : p / 4096 = v * 64 + x := by omega
  omega

/-- A sequence that is not overlong and not beyond the last point is a form. -/
theorem form_value {b : Byte} {cs : List Byte} {v : Nat} (hlead : lead b.toNat = some (v, cs.length))
    (hcont : ∀ c ∈ cs, Trail c) (hbad : ∀ c ∈ cs.head?, ¬ Overlong b.toNat c.toNat ∧ ¬ Beyond b.toNat c.toNat) :
    form (value v cs) = b :: cs ∧ value v cs < 0x110000 := by
  unfold Overlong Beyond at hbad
  unfold Trail at hcont
  rw [lead] at hlead
  split_ifs at hlead with h₁ h₂ h₃ h₄ h₅ <;>
    simp only [Option.some.injEq, Prod.mk.injEq] at hlead
  · obtain ⟨rfl, hlen⟩ := hlead
    obtain rfl := List.length_eq_zero_iff.1 hlen.symm
    refine ⟨?_, by simp only [value, List.foldl_nil]; omega⟩
    rw [value, List.foldl_nil, form, if_pos h₁, eq_byte rfl]
  · obtain ⟨rfl, hlen⟩ := hlead
    obtain ⟨c, rfl⟩ := List.length_eq_one_iff.1 hlen.symm
    have hc := hcont c (List.mem_singleton_self c)
    have hshort : 0xC2 ≤ b.toNat := by
      have hshort := (hbad c rfl).1
      omega
    clear hbad hcont
    generalize hp : value (b.toNat % 32) [c] = p
    obtain ⟨hlast, hb, hc'⟩ := two_bytes (by omega) h₃ hc hp.symm
    refine ⟨?_, by omega⟩
    rw [form, if_neg (by omega), if_pos hlast, eq_byte hb, eq_byte hc']
  · obtain ⟨rfl, hlen⟩ := hlead
    obtain ⟨c, d, rfl⟩ := List.length_eq_two.1 hlen.symm
    have hc := hcont c (by simp)
    have hd := hcont d (by simp)
    have hshort : 0xE1 ≤ b.toNat ∨ 0xA0 ≤ c.toNat := by
      have hshort := (hbad c rfl).1
      omega
    clear hbad hcont
    generalize hp : value (b.toNat % 16) [c, d] = p
    obtain ⟨hlast, hb, hc', hd'⟩ := three_bytes (by omega) h₄ hc hd hp.symm
    have hfirst : 0x800 ≤ p := by omega
    refine ⟨?_, by omega⟩
    rw [form, if_neg (by omega), if_neg (by omega), if_pos hlast, eq_byte hb, eq_byte hc', eq_byte hd']
  · obtain ⟨rfl, hlen⟩ := hlead
    obtain ⟨c, d, e, rfl⟩ := List.length_eq_three.1 hlen.symm
    have hc := hcont c (by simp)
    have hd := hcont d (by simp)
    have he := hcont e (by simp)
    have hshort : 0xF1 ≤ b.toNat ∨ 0x90 ≤ c.toNat := by
      have hshort := (hbad c rfl).1
      omega
    have hlast : b.toNat ≤ 0xF3 ∨ b.toNat = 0xF4 ∧ c.toNat < 0x90 := by
      have hlast := (hbad c rfl).2
      omega
    clear hbad hcont
    generalize hp : value (b.toNat % 8) [c, d, e] = p
    obtain ⟨hb, hc', hd', he'⟩ := four_bytes (by omega) h₅ hc hd he hp.symm
    have hrange : 0x10000 ≤ p ∧ p < 0x110000 := by
      clear hp hd he hd' he'
      omega
    clear hp hshort hlast
    refine ⟨?_, hrange.2⟩
    rw [form, if_neg (by omega), if_neg (by omega), if_neg (by omega), eq_byte hb, eq_byte hc', eq_byte hd',
      eq_byte he']

theorem beginsLow_form {p : Nat} (h : p < 0x110000) (rest : List Byte) : BeginsLow (form p ++ rest) ↔ Low p := by
  rw [form, Low]
  split_ifs with h₁ h₂ h₃
  · cases rest with
    | nil => exact ⟨fun hlow => hlow.elim, fun hlow => by omega⟩
    | cons c rest => simp only [List.singleton_append, BeginsLow, LowForm, byte_toNat (show p < 256 by omega)]; omega
  · simp only [List.cons_append, BeginsLow, LowForm]
    rw [byte_toNat (by omega), byte_toNat (by omega)]
    omega
  · simp only [List.cons_append, BeginsLow, LowForm]
    rw [byte_toNat (by omega), byte_toNat (by omega)]
    omega
  · simp only [List.cons_append, BeginsLow, LowForm]
    rw [byte_toNat (by omega), byte_toNat (by omega)]
    omega

/-- A form is bad with that of a low surrogate behind that of a high one only. -/
theorem bad_form {p : Nat} (h : p < 0x110000) (rest : List Byte) :
    Bad (form p ++ rest) ↔ High p ∧ BeginsLow rest := by
  rw [form, High]
  split_ifs with h₁ h₂ h₃
  · cases rest with
    | nil => exact ⟨fun hbad => hbad.elim, fun hhigh => by omega⟩
    | cons c rest =>
      simp only [List.singleton_append, Bad, Overlong, Beyond, HighForm, byte_toNat (show p < 256 by omega)]
      omega
  · simp only [List.cons_append, Bad, Overlong, Beyond, HighForm]
    rw [byte_toNat (by omega), byte_toNat (by omega)]
    omega
  · simp only [List.cons_append, List.nil_append, List.drop_one, List.tail_cons, Bad, Overlong, Beyond, HighForm]
    rw [byte_toNat (by omega), byte_toNat (by omega)]
    refine ⟨?_, fun ⟨hhigh, hrest⟩ => .inr (.inr ⟨by omega, hrest⟩)⟩
    rintro (hover | hbeyond | ⟨hhigh, hrest⟩)
    · omega
    · omega
    · exact ⟨by omega, hrest⟩
  · simp only [List.cons_append, Bad, Overlong, Beyond, HighForm]
    rw [byte_toNat (by omega), byte_toNat (by omega)]
    omega

theorem clean_cons {b : Byte} {bs : List Byte} : Clean (b :: bs) ↔ ¬ Bad (b :: bs) ∧ Clean bs := by
  rw [Clean, List.tails_cons, List.forall_mem_cons]
  rfl

theorem not_bad_cont {b : Byte} (h : Trail b) (rest : List Byte) : ¬ Bad (b :: rest) := by
  unfold Trail at h
  cases rest with
  | nil => exact id
  | cons c rest =>
    unfold Bad Overlong Beyond HighForm
    omega

theorem clean_conts {cs : List Byte} (h : ∀ c ∈ cs, Trail c) (rest : List Byte) :
    Clean (cs ++ rest) ↔ Clean rest := by
  induction cs with
  | nil => rfl
  | cons c cs ih =>
    obtain ⟨hc, hcs⟩ := List.forall_mem_cons.1 h
    rw [List.cons_append, clean_cons, ih hcs]
    exact and_iff_right (not_bad_cont hc _)

theorem clean_form_append {p : Nat} (h : p < 0x110000) (rest : List Byte) :
    Clean (form p ++ rest) ↔ ¬ (High p ∧ BeginsLow rest) ∧ Clean rest := by
  rw [← bad_form h]
  obtain ⟨b, cs, v, hform, hlead, hcont, -⟩ := form_eq (h.trans (by decide))
  rw [hform, List.cons_append, clean_cons, clean_conts hcont]

theorem beginsLow_forms {p : Nat} {ps : List Nat} (h : p < 0x110000) :
    BeginsLow ((p :: ps).flatMap form) ↔ Low p := by
  rw [List.flatMap_cons, beginsLow_form h]

/-- The bytes of a text are clean. -/
theorem clean_forms {ps : List Nat} (hlt : ∀ p ∈ ps, p < 0x110000) (hpair : NoPair ps) :
    Clean (ps.flatMap form) := by
  induction ps with
  | nil => decide
  | cons p ps ih =>
    obtain ⟨hp, hps⟩ := List.forall_mem_cons.1 hlt
    obtain ⟨hhead, hchain⟩ := List.isChain_cons.1 hpair
    rw [List.flatMap_cons, clean_form_append hp]
    refine ⟨?_, ih hps hchain⟩
    rintro ⟨hhigh, hlow⟩
    cases ps with
    | nil => exact hlow
    | cons q ps => exact hhead q rfl ⟨hhigh, (beginsLow_forms (List.forall_mem_cons.1 hps).1).1 hlow⟩

/-- Clean bytes are the forms of their points, which are those of a text. -/
theorem eq_forms_of_clean {bs : List Byte} {ps : List Nat} (hread : readPoints bs = some ps) (hclean : Clean bs) :
    bs = ps.flatMap form ∧ (∀ p ∈ ps, p < 0x110000) ∧ NoPair ps := by
  induction bs using readPoints.induct generalizing ps with
  | case1 =>
    rw [readPoints, Option.some.injEq] at hread
    rw [← hread]
    exact ⟨rfl, fun p hp => absurd hp List.not_mem_nil, .nil⟩
  | case2 b bs hlead => simp [readPoints, hlead] at hread
  | case3 b bs v n hlead hcs ih =>
    obtain ⟨hn, hcont⟩ := hcs
    obtain ⟨cs, rest, rfl, rfl⟩ : ∃ cs rest, bs = cs ++ rest ∧ cs.length = n :=
      ⟨bs.take n, bs.drop n, (List.take_append_drop n bs).symm, List.length_take_of_le hn⟩
    rw [List.take_left] at hcont
    rw [List.drop_left] at ih
    rw [readPoints_cons hlead hcont, Option.map_eq_some_iff] at hread
    obtain ⟨ps, hps, rfl⟩ := hread
    obtain ⟨hbad, hrest⟩ := clean_cons.1 hclean
    rw [clean_conts hcont] at hrest
    obtain ⟨rfl, hlt, hpair⟩ := ih hps hrest
    have hshape : ∀ c ∈ cs.head?, ¬ Overlong b.toNat c.toNat ∧ ¬ Beyond b.toNat c.toNat := by
      intro c hc
      cases cs with
      | nil => exact absurd hc (by simp)
      | cons c' cs =>
        obtain rfl : c' = c := Option.some.inj hc
        exact ⟨fun h => hbad (.inl h), fun h => hbad (.inr (.inl h))⟩
    obtain ⟨hform, hval⟩ := form_value hlead hcont hshape
    rw [← List.cons_append, ← hform, bad_form hval] at hbad
    refine ⟨by rw [List.flatMap_cons, hform, List.cons_append], List.forall_mem_cons.2 ⟨hval, hlt⟩,
      List.isChain_cons.2 ⟨?_, hpair⟩⟩
    rintro q hq ⟨hhigh, hlow⟩
    cases ps with
    | nil => exact absurd hq (by simp)
    | cons q' ps =>
      obtain rfl : q' = q := Option.some.inj hq
      exact hbad ⟨hhigh, (beginsLow_forms (List.forall_mem_cons.1 hlt).1).2 hlow⟩
  | case4 b bs v n hlead hcs => simp [readPoints, hlead, hcs] at hread

end NewM2.Wtf8
