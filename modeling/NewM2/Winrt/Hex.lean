import Mathlib
import NewM2.Winrt.Base64

/-!
# Hexadecimal (`library/winrtmod/Hex.mod`)

Two digits for a byte. `decode` looks for whitespace in front of the first digit of a byte only, so that a text
with whitespace inserted is decoded just if none of it is between the digits of a byte. -/

namespace NewM2.Winrt.Hex
open Chars Output
open Base64 (Byte byte white)

def nib (v : Nat) (upper : Bool) : Code :=
  if v < 10 then BitVec.ofNat 16 ('0'.toNat + v)
  else if upper then BitVec.ofNat 16 ('A'.toNat + v - 10)
  else BitVec.ofNat 16 ('a'.toNat + v - 10)

/-- 255 for what is no digit. -/
def hexVal (c : Code) : Nat :=
  if code '0' ≤ c ∧ c ≤ code '9' then c.toNat - '0'.toNat
  else if code 'a' ≤ c ∧ c ≤ code 'f' then c.toNat - 'a'.toNat + 10
  else if code 'A' ≤ c ∧ c ≤ code 'F' then c.toNat - 'A'.toNat + 10
  else 255

def encodeLoop (data : OpenArray Byte) (n : Nat) (upper : Bool) (i k : Nat) (text : Chars) :
    Except Fault (Bool × Nat × Chars) :=
  if i < n then
    if text.high < k + 2 then .ok (false, k, text)
    else do
      let b ← data.get i
      let text ← text.put k (nib (b.toNat / 16) upper)
      let text ← text.put (k + 1) (nib (b.toNat % 16) upper)
      encodeLoop data n upper (i + 1) (k + 2) text
  else .ok (true, k, text)
termination_by n - i

/-- The result, and `text`. -/
def encode (data : OpenArray Byte) (n : Nat) (upper : Bool) (text : Chars) : Except Fault (Bool × Chars) := do
  let (ok, k, text) ← encodeLoop data n upper 0 0 text
  if ok then
    let text ← (if k ≤ text.high then text.put k nul else .ok text)
    .ok (true, text)
  else .ok (false, text)

def decodeLoop (text : Chars) (i k : Nat) (data : OpenArray Byte) : Except Fault (Bool × Nat × OpenArray Byte) :=
  if i < text.size then do
    let c ← text.get i
    if c = nul then .ok (true, k, data)
    else if white c then decodeLoop text (i + 1) k data
    else
      let hi := hexVal c
      if hi = 255 then .ok (false, k, data)
      else if text.size ≤ i + 1 then .ok (false, k, data)
      else do
        let c ← text.get (i + 1)
        if c = nul then .ok (false, k, data)
        else
          let lo := hexVal c
          if lo = 255 then .ok (false, k, data)
          else do
            let (ok, k, data) ← OpenArray.push (byte (hi * 16 + lo)) k data
            if ok then decodeLoop text (i + 2) k data else .ok (false, k, data)
  else .ok (true, k, data)
termination_by text.size - i

/-- The result, `n` and `data`. -/
def decode (text : Chars) (data : OpenArray Byte) (n : Nat) : Except Fault (Bool × Nat × OpenArray Byte) := do
  let (ok, k, data) ← decodeLoop text 0 0 data
  .ok (ok, if ok then k else n, data)

/-! ## Texts and bytes -/

/-- The text of some bytes. -/
def textOf (upper : Bool) (bs : List Byte) : List Code :=
  bs.flatMap fun b => [nib (b.toNat / 16) upper, nib (b.toNat % 16) upper]

/-- The bytes that are put for a text, if there is nothing wrong in it. -/
def bytesOf : List Code → Option (List Byte)
  | [] => some []
  | c :: s =>
    if white c then bytesOf s
    else if hexVal c = 255 then none
    else
      match s with
      | [] => none
      | d :: s => if hexVal d = 255 then none else (bytesOf s).map ([byte (hexVal c * 16 + hexVal d)] ++ ·)

/-- There is no whitespace between the first and the second digit of a byte. -/
def Paired : List Code → Prop
  | [] => True
  | c :: s =>
    if white c then Paired s
    else
      match s with
      | [] => True
      | d :: s => white d = false ∧ Paired s

variable {data : OpenArray Byte} {text : Chars} {n i k m : Nat} {c : Code} {s : List Code} {bs : List Byte}
  {upper : Bool} {w : List Code} {allowed : Fault → Prop}

theorem hexVal_nib {v : Nat} (h : v < 16) (upper : Bool) :
    hexVal (nib v upper) = v ∧ white (nib v upper) = false ∧ nib v upper ≠ nul := by
  cases upper <;> interval_cases v <;> decide

theorem hexVal_white (h : white c = true) : hexVal c = 255 := by
  rw [white, decide_eq_true_eq] at h
  rcases h with rfl | rfl | rfl | rfl <;> decide

theorem length_textOf (upper : Bool) (bs : List Byte) : (textOf upper bs).length = 2 * bs.length := by
  induction bs with
  | nil => rfl
  | cons b bs ih =>
    rw [textOf, List.flatMap_cons, List.length_append, ← textOf, ih, List.length_cons]
    simp only [List.length_cons, List.length_nil]
    omega

theorem textOf_cons (upper : Bool) (b : Byte) (bs : List Byte) :
    textOf upper (b :: bs) = nib (b.toNat / 16) upper :: nib (b.toNat % 16) upper :: textOf upper bs := rfl

theorem textOf_plain (upper : Bool) (bs : List Byte) : ∀ c ∈ textOf upper bs, white c = false ∧ c ≠ nul := by
  intro c hc
  obtain ⟨b, -, hmem⟩ := List.mem_flatMap.1 hc
  have hb := b.isLt
  rcases List.mem_pair.1 hmem with rfl | rfl
  · exact (hexVal_nib (by omega) upper).2
  · exact (hexVal_nib (by omega) upper).2

theorem byte_digits (b : Byte) : byte (b.toNat / 16 * 16 + b.toNat % 16) = b := by
  rw [Nat.div_add_mod', byte, Nat.and_two_pow_sub_one_eq_mod b.toNat 8]
  refine BitVec.eq_of_toNat_eq ?_
  rw [BitVec.toNat_ofNat, Nat.mod_mod, Nat.mod_eq_of_lt b.isLt]

theorem bytesOf_white (h : white c = true) (s : List Code) : bytesOf (c :: s) = bytesOf s := by
  rw [bytesOf.eq_def]
  exact if_pos h

theorem paired_white (h : white c = true) (s : List Code) : Paired (c :: s) ↔ Paired s := by
  rw [Paired.eq_def]
  dsimp only
  rw [if_pos h]

theorem paired_cons {d : Code} (h : white c = false) (s : List Code) :
    Paired (c :: d :: s) ↔ white d = false ∧ Paired s := by
  rw [Paired.eq_def]
  dsimp only
  rw [if_neg (by simp [h])]

/-- The text of the bytes with whitespace inserted gives them back just if no pair of digits is torn apart. -/
theorem bytesOf_iff (s : List Code) (bs : List Byte) (h : s.filter (fun c => !white c) = textOf upper bs) :
    bytesOf s = some bs ↔ Paired s := by
  cases s with
  | nil =>
    have hlen := congrArg List.length h
    rw [length_textOf, List.filter_nil, List.length_nil] at hlen
    obtain rfl : bs = [] := List.length_eq_zero_iff.1 (by omega)
    simp [bytesOf, Paired]
  | cons c s =>
    by_cases hwhite : white c = true
    · rw [List.filter_cons_of_neg (by simp [hwhite])] at h
      rw [bytesOf_white hwhite, paired_white hwhite]
      exact bytesOf_iff s bs h
    · rw [Bool.not_eq_true] at hwhite
      rw [List.filter_cons_of_pos (by simp [hwhite])] at h
      cases bs with
      | nil => exact absurd h (List.cons_ne_nil _ _)
      | cons b bs =>
        rw [textOf_cons, List.cons.injEq] at h
        obtain ⟨hc, h⟩ := h
        have hb := b.isLt
        have hval := (hexVal_nib (v := b.toNat / 16) (by omega) upper).1
        rw [← hc] at hval
        cases s with
        | nil => exact absurd h.symm (List.cons_ne_nil _ _)
        | cons d s =>
          rw [paired_cons hwhite, bytesOf, if_neg (by simp [hwhite]), if_neg (by omega)]
          by_cases hd : white d = true
          · rw [if_pos (hexVal_white hd), hd]
            exact ⟨fun hnone => absurd hnone.symm (Option.some_ne_none _), fun hfalse => absurd hfalse.1 (by decide)⟩
          · rw [Bool.not_eq_true] at hd
            rw [List.filter_cons_of_pos (by simp [hd]), List.cons.injEq] at h
            obtain ⟨hd', h⟩ := h
            have hval' := (hexVal_nib (v := b.toNat % 16) (by omega) upper).1
            rw [← hd'] at hval'
            rw [if_neg (by omega), hval, hval', byte_digits, and_iff_right hd, ← bytesOf_iff s bs h]
            cases bytesOf s with
            | none => simp
            | some bs' => simp
termination_by s.length

/-! ## Running -/

theorem encodeLoop_runs (hn : n ≤ data.size) (upper : Bool) (i : Nat) {w : List Code} {k : Nat} {text : Chars}
    (h : Wrote w m k text) (hk : k < m) :
    Runs allowed (encodeLoop data n upper i k text) fun r =>
      if (w ++ textOf upper ((data.cells.take n).drop i)).length < m then
        r.1 = true ∧ Wrote (w ++ textOf upper ((data.cells.take n).drop i)) m r.2.1 r.2.2
      else r.1 = false := by
  have hcount := h.count
  have hsize := h.size
  have hhigh := text.high_add_one
  rw [encodeLoop]
  cases hdrop : (data.cells.take n).drop i with
  | nil =>
    rw [if_neg (Nat.not_lt.2 (OpenArray.le_of_drop_take_nil hn hdrop)), textOf, List.flatMap_nil, List.append_nil]
    refine Runs.ok ?_
    rw [if_pos (by omega)]
    exact ⟨rfl, h⟩
  | cons b rest =>
    obtain ⟨hget, hi, hrest⟩ := OpenArray.get_of_drop_take hdrop
    rw [if_pos hi, textOf_cons]
    by_cases hfull : text.high < k + 2
    · rw [if_pos hfull]
      refine Runs.ok ?_
      rw [if_neg (by simp only [List.length_append, List.length_cons]; omega)]
    · rw [if_neg hfull, hget]
      refine (h.put (by omega) _).bind fun text₁ h₁ => (h₁.put (by omega) _).bind fun text₂ h₂ => ?_
      have hloop := encodeLoop_runs hn upper (i + 1) h₂ (by omega)
      rw [hrest, List.append_assoc, List.append_assoc] at hloop
      exact hloop
termination_by n - i

theorem decodeLoop_runs (text : Chars) (i : Nat) (hi : i ≤ text.text.length) {w : List Byte} {k : Nat}
    {data : OpenArray Byte} (h : OpenArray.Wrote w m k data) :
    Runs allowed (decodeLoop text i k data) (OpenArray.Gives w (bytesOf (text.text.drop i)) m) := by
  rw [decodeLoop]
  cases hdrop : text.text.drop i with
  | nil =>
    by_cases hsize : i < text.size
    · rw [if_pos hsize, get_of_drop_nil hdrop hi hsize, bytesOf]
      exact Runs.ok (OpenArray.Puts.nil h)
    · rw [if_neg hsize, bytesOf]
      exact Runs.ok (OpenArray.Puts.nil h)
  | cons c rest =>
    obtain ⟨hget, hnul, hsize, hrest⟩ := get_of_drop hdrop
    have hle := le_of_drop_cons hdrop
    rw [if_pos hsize, hget]
    refine Runs.bind (Q := fun x => x = c) rfl fun x hx => ?_
    rw [show x = c from hx, if_neg hnul]
    by_cases hwhite : white c = true
    · rw [if_pos hwhite, bytesOf_white hwhite, ← hrest]
      exact decodeLoop_runs text (i + 1) hle h
    · rw [if_neg hwhite, bytesOf.eq_def]
      dsimp only
      rw [if_neg hwhite]
      by_cases hbad : hexVal c = 255
      · rw [if_pos hbad, if_pos hbad]
        exact Runs.ok rfl
      · rw [if_neg hbad, if_neg hbad]
        cases rest with
        | nil =>
          by_cases hend : text.size ≤ i + 1
          · rw [if_pos hend]
            exact Runs.ok rfl
          · rw [if_neg hend, get_of_drop_nil hrest hle (by omega)]
            exact Runs.ok rfl
        | cons d rest =>
          obtain ⟨hget', hnul', hsize', hrest'⟩ := get_of_drop hrest
          rw [if_neg (by omega), hget']
          refine Runs.bind (Q := fun x => x = d) rfl fun x hx => ?_
          rw [show x = d from hx, if_neg hnul']
          dsimp only
          by_cases hbad' : hexVal d = 255
          · rw [if_pos hbad', if_pos hbad']
            exact Runs.ok rfl
          · rw [if_neg hbad', if_neg hbad', ← hrest']
            exact OpenArray.Gives.bind (OpenArray.push_runs h _) fun k data h' =>
              decodeLoop_runs text (i + 2) (le_of_drop_cons hrest) h'
termination_by text.size - i

theorem encode_runs (hn : n ≤ data.size) (upper : Bool) (text : Chars) :
    Runs allowed (encode data n upper text) fun r =>
      (r.1 = true ↔ (textOf upper (data.cells.take n)).length < text.size) ∧
        (r.1 = true → r.2.text = textOf upper (data.cells.take n)) := by
  refine (encodeLoop_runs hn upper 0 (Wrote.start text) text.size_pos).bind ?_
  rintro ⟨ok, k, out⟩ h
  rw [List.nil_append, List.drop_zero] at h
  split_ifs at h with hfits
  · obtain ⟨rfl, hwrote⟩ := h
    replace hwrote : Wrote (textOf upper (data.cells.take n)) text.size k out := hwrote
    have hcount := hwrote.count
    have hsize := hwrote.size
    change Runs allowed (do
      let text ← (if k ≤ out.high then out.put k nul else .ok out)
      .ok (true, text)) _
    rw [if_pos (le_high_iff.2 (by omega))]
    refine (hwrote.put (by omega) nul).bind fun o ho => Runs.ok ⟨⟨fun _ => hfits, fun _ => rfl⟩, fun _ => ?_⟩
    obtain ⟨rest, hrest⟩ := ho.prefix_cells
    rw [List.append_assoc] at hrest
    exact text_of_append hrest.symm fun hnul => (textOf_plain _ _ nul hnul).2 rfl
  · obtain rfl : ok = false := h
    exact Runs.ok ⟨⟨fun h => absurd h Bool.false_ne_true, fun h => absurd h hfits⟩,
      fun h => absurd h Bool.false_ne_true⟩

theorem decode_runs (text : Chars) (data : OpenArray Byte) (n : Nat) :
    Runs allowed (decode text data n) fun r =>
      (bytesOf text.text).elim (r.1 = false) fun bs =>
        if bs.length ≤ data.size then r.1 = true ∧ r.2.1 = bs.length ∧ r.2.2.cells.take r.2.1 = bs
        else r.1 = false := by
  refine (decodeLoop_runs text 0 (Nat.zero_le _) (OpenArray.Wrote.start data)).bind ?_
  rintro ⟨ok, k, out⟩ h
  rw [List.drop_zero] at h
  cases hbs : bytesOf text.text with
  | none =>
    rw [hbs] at h
    exact Runs.ok h
  | some bs =>
    rw [hbs] at h
    have hput : OpenArray.Puts [] bs data.size (ok, k, out) := h
    rw [OpenArray.Puts, List.nil_append] at hput
    refine Runs.ok ?_
    rw [Option.elim_some]
    by_cases hroom : bs.length ≤ data.size
    · rw [if_pos hroom] at hput ⊢
      obtain ⟨rfl, hwrote⟩ := hput
      exact ⟨rfl, hwrote.count, hwrote.cells⟩
    · rw [if_neg hroom] at hput ⊢
      exact hput

/-! ## There and back -/

/-- The text is decoded to these bytes, whenever there is room for them. -/
def DecodesTo (decode : Chars → OpenArray Byte → Nat → Except Fault (Bool × Nat × OpenArray Byte)) (t : Chars)
    (bs : List Byte) : Prop :=
  ∀ (data : OpenArray Byte) (n : Nat), bs.length ≤ data.size →
    ∃ data', decode t data n = .ok (true, bs.length, data') ∧ data'.cells.take bs.length = bs

/-- The first text is the other one with whitespace inserted. -/
def Spaced (s t : Chars) : Prop := s.text.filter (fun c => !white c) = t.text

theorem spaced_self {t : Chars} (h : ∀ c ∈ t.text, white c = false ∧ c ≠ nul) : Spaced t t :=
  List.filter_eq_self.2 fun c hc => by rw [(h c hc).1]; rfl

theorem base64_decodesTo {t : Chars} (h : t.text = Base64.textOf bs) {s : Chars} (hs : Spaced s t) :
    DecodesTo Base64.decode s bs := by
  intro data n hroom
  have hbytes : Base64.bytesOf 0 0 s.text = some bs := by
    rw [← Base64.bytesOf_filter, hs, h, Base64.bytesOf_textOf]
  obtain ⟨⟨ok, m, out⟩, hrun, hres⟩ := (Base64.decode_runs s data n).succeeds
  obtain ⟨hok, hm, hcells⟩ := hres bs hbytes hroom
  dsimp only at hok hm hcells
  exact ⟨out, by rw [hrun, hok, hm], by rw [← hm, hcells]⟩

theorem hex_decodesTo {t : Chars} (h : t.text = textOf upper bs) {s : Chars} (hs : Spaced s t)
    (hroom : bs.length ≤ data.size) : DecodesTo decode s bs ↔ Paired s.text := by
  rw [← bytesOf_iff s.text bs (hs.trans h)]
  refine ⟨fun hdec => ?_, fun hbytes data n hroom => ?_⟩
  · obtain ⟨out, hrun, hcells⟩ := hdec data 0 hroom
    have hres : Runs (fun _ => False) (decode s data 0) _ := decode_runs s data 0
    rw [hrun] at hres
    cases hbytes : bytesOf s.text with
    | none =>
      rw [hbytes] at hres
      exact absurd (show true = false from hres) (by decide)
    | some bs' =>
      rw [hbytes] at hres
      change (if bs'.length ≤ data.size then _ else _) at hres
      by_cases hroom' : bs'.length ≤ data.size
      · rw [if_pos hroom'] at hres
        rw [← hres.2.2, hcells]
      · rw [if_neg hroom'] at hres
        exact absurd (show true = false from hres) (by decide)
  · obtain ⟨⟨ok, m, out⟩, hrun, hres⟩ := (decode_runs s data n).succeeds
    rw [hbytes, Option.elim_some, if_pos hroom] at hres
    obtain ⟨hok, hm, hcells⟩ := hres
    dsimp only at hok hm hcells
    exact ⟨out, by rw [hrun, hok, hm], by rw [← hm, hcells]⟩

theorem paired_textOf (upper : Bool) (bs : List Byte) : Paired (textOf upper bs) := by
  induction bs with
  | nil => trivial
  | cons b bs ih =>
    have hb := b.isLt
    rw [textOf_cons, paired_cons (hexVal_nib (by omega) upper).2.1]
    exact ⟨(hexVal_nib (by omega) upper).2.1, ih⟩

/-- Both decoders undo their encoders, also with whitespace inserted, but in `Hex` not between the digits of a
byte; and no text makes them leave their arrays. -/
theorem codecs_exact (hn : n ≤ data.size) (upper : Bool) (text : Chars) :
    (∃ ok t, Base64.encode data n text = .ok (ok, t) ∧ (ok = true ↔ Base64.encodedLength n < text.size) ∧
        (ok = true → t.text.length = Base64.encodedLength n ∧ Spaced t t ∧
          ∀ s, Spaced s t → DecodesTo Base64.decode s (data.cells.take n))) ∧
      (∃ ok t, encode data n upper text = .ok (ok, t) ∧ (ok = true ↔ 2 * n < text.size) ∧
        (ok = true → Spaced t t ∧ Paired t.text ∧
          ∀ s, Spaced s t → (DecodesTo decode s (data.cells.take n) ↔ Paired s.text))) ∧
      ∀ (s : Chars) (out : OpenArray Byte) (m : Nat),
        (∃ r, Base64.decode s out m = .ok r) ∧ ∃ r, decode s out m = .ok r := by
  have hlen : (data.cells.take n).length = n := List.length_take_of_le hn
  have hsmall : data.size < 2 ^ 63 := data.small
  refine ⟨?_, ?_, fun s out m => ⟨?_, ?_⟩⟩
  · obtain ⟨⟨ok, t⟩, hrun, hok, ht⟩ := (Base64.encode_runs hn text).succeeds
    have hcount : (Base64.textOf (data.cells.take n)).length = Base64.encodedLength n := by
      rw [Base64.length_textOf, hlen, Base64.encodedLength, wrap_of_lt (by omega : n + 2 < 2 ^ 64),
        wrap_of_lt (by omega)]
    rw [hcount] at hok
    refine ⟨ok, t, hrun, hok, fun h => ?_⟩
    replace ht : t.text = Base64.textOf (data.cells.take n) := ht h
    refine ⟨by rw [ht, hcount], spaced_self (ht ▸ Base64.textOf_plain _), fun s hs => base64_decodesTo ht hs⟩
  · obtain ⟨⟨ok, t⟩, hrun, hok, ht⟩ := (encode_runs hn upper text).succeeds
    rw [length_textOf, hlen] at hok
    refine ⟨ok, t, hrun, hok, fun h => ?_⟩
    replace ht : t.text = textOf upper (data.cells.take n) := ht h
    exact ⟨spaced_self (ht ▸ textOf_plain _ _), ht ▸ paired_textOf _ _,
      fun s hs => hex_decodesTo ht hs (hlen.trans_le hn)⟩
  · obtain ⟨r, hrun, -⟩ := (Base64.decode_runs s out m).succeeds
    exact ⟨r, hrun⟩
  · obtain ⟨r, hrun, -⟩ := (decode_runs s out m).succeeds
    exact ⟨r, hrun⟩

def oneByte : OpenArray Byte := ⟨[0xAB], List.cons_ne_nil _ _, by decide⟩

/-- `ab` with a blank in between. -/
def tornText : Chars := ⟨[code 'a', code ' ', code 'b'], List.cons_ne_nil _ _, by decide⟩

/-- The blank between the digits is taken for an invalid digit. -/
theorem decode_torn :
    ∃ t, encode oneByte 1 false ⟨[nul, nul, nul], List.cons_ne_nil _ _, by decide⟩ = .ok (true, t) ∧
      Spaced tornText t ∧ decode tornText oneByte 0 = .ok (false, 0, oneByte) ∧ ¬ DecodesTo decode tornText [0xAB] := by
  refine ⟨⟨[code 'a', code 'b', nul], List.cons_ne_nil _ _, by decide⟩, by decide +kernel,
    by unfold Spaced; decide, by decide +kernel, fun h => ?_⟩
  obtain ⟨out, hrun, -⟩ := h oneByte 0 (by decide)
  have hfalse : decode tornText oneByte 0 = .ok (false, 0, oneByte) := by decide +kernel
  rw [hfalse] at hrun
  simp at hrun

/-- The byte is encoded and decoded. -/
theorem codecs_exact_byte :
    1 ≤ oneByte.size ∧
      ∃ ok t, encode oneByte 1 false ⟨[nul, nul, nul], List.cons_ne_nil _ _, by decide⟩ = .ok (ok, t) ∧
        (ok = true ↔ 2 * 1 < 3) ∧
        (ok = true → Spaced t t ∧ Paired t.text ∧
          ∀ s, Spaced s t → (DecodesTo decode s [0xAB] ↔ Paired s.text)) :=
  ⟨by decide, (@codecs_exact oneByte 1 (by decide) false
    ⟨[nul, nul, nul], List.cons_ne_nil _ _, by decide⟩).2.1⟩

end NewM2.Winrt.Hex
