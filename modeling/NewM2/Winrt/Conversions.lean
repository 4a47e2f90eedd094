import Mathlib
import NewM2.Lib.Digits
import NewM2.Lib.Output
import NewM2.Winrt.Money

/-!
# Numbers as texts (`library/winrtmod/Conversions.mod`)

The formatters. `numeral` is the text of a number in a base, and the whole-string forms write it at the
beginning of their array, with a NUL behind it if there is room. -/

namespace NewM2.Winrt.Conversions
open Chars Digits Output Money

def digitChar (d : Nat) : Code :=
  if d < 10 then BitVec.ofNat 16 ('0'.toNat + d) else BitVec.ofNat 16 ('A'.toNat + (d - 10))

/-- `pos`, `done` and `str` are the sink. -/
def emitNumber (mag base size : Nat) (sign : Code) (str : Chars) (pos : Nat) : Except Fault Sink := do
  let cap := str.size
  let buf := lowDigits base mag
  let width := if sign ≠ nul then buf.length + 1 else buf.length
  let q ← emitAll cap (List.replicate (size - width) (code ' ')) ⟨str, pos, true⟩
  let q ← (if sign ≠ nul then emit cap sign q else .ok q)
  let q ← emitAll cap (buf.reverse.map digitChar) q
  let str ← (if q.pos < cap then q.out.put q.pos nul else .ok q.out)
  .ok { q with out := str }

/-- The result, and `str`. -/
def cardToStr (num : Word) (str : Chars) : Except Fault (Bool × Chars) := do
  let q ← emitNumber num.toNat 10 0 nul str 0
  .ok (q.ok, q.out)

def intToStr (num : Word) (str : Chars) : Except Fault (Bool × Chars) := do
  let sign := if num.toInt < 0 then code '-' else nul
  let q ← emitNumber (magU num).toNat 10 0 sign str 0
  .ok (q.ok, q.out)

def cardBaseToStr (num base : Word) (str : Chars) : Except Fault (Bool × Chars) :=
  if base.toNat < 2 ∨ 16 < base.toNat then .ok (false, str)
  else do
    let q ← emitNumber num.toNat base.toNat 0 nul str 0
    .ok (q.ok, q.out)

/-! ## Texts -/

/-- The digits of `n`, highest first. -/
def numeral (b n : Nat) : List Code := (lowDigits b n).reverse.map digitChar

/-- A number with its sign. -/
def signedText (sign : Code) (b n : Nat) : List Code := (if sign ≠ nul then [sign] else []) ++ numeral b n

variable {b n k : Nat} {sign : Code} {str : Chars} {allowed : Fault → Prop}

theorem lowDigits_lt (hb : 0 < b) (n : Nat) : ∀ d ∈ lowDigits b n, d < b := by
  induction n using lowDigits.induct b with
  | case1 n h =>
    rw [lowDigits, if_pos h, List.forall_mem_singleton]
    exact Nat.mod_lt _ hb
  | case2 n h ih =>
    rw [lowDigits, if_neg h, List.forall_mem_cons]
    exact ⟨Nat.mod_lt _ hb, ih⟩

theorem length_lowDigits_le (hk : 0 < k) (h : n < b ^ k) : (lowDigits b n).length ≤ k := by
  induction k, hk using Nat.le_induction generalizing n with
  | base =>
    rw [lowDigits, if_pos (.inl (Nat.div_eq_of_lt (by simpa using h)))]
    simp
  | succ k hk ih =>
    rw [lowDigits]
    split_ifs
    · simp
    · exact Nat.succ_le_succ (ih (Nat.div_lt_of_lt_mul (by rwa [← pow_succ'])))

theorem digitChar_ne_nul {d : Nat} (h : d < 16) : digitChar d ≠ nul := by
  interval_cases d <;> decide

theorem numeral_nul (hb : 0 < b) (hb' : b ≤ 16) (n : Nat) : nul ∉ numeral b n := by
  intro h
  obtain ⟨d, hd, hnul⟩ := List.mem_map.1 h
  exact digitChar_ne_nul ((lowDigits_lt hb n d (List.mem_reverse.1 hd)).trans_le hb') hnul

theorem signedText_nul (hb : 0 < b) (hb' : b ≤ 16) (sign : Code) (n : Nat) : nul ∉ signedText sign b n := by
  rw [signedText, List.mem_append, not_or]
  refine ⟨?_, numeral_nul hb hb' n⟩
  split_ifs with h
  · simpa using h.symm
  · exact List.not_mem_nil

theorem length_signedText (hb : 2 ≤ b) (sign : Code) (h : n < 2 ^ 64) : (signedText sign b n).length ≤ 65 := by
  have hdigits : (lowDigits b n).length ≤ 64 :=
    length_lowDigits_le (by decide) (h.trans_le (Nat.pow_le_pow_left hb 64))
  have hsign : (if sign ≠ nul then [sign] else []).length ≤ 1 := by split_ifs <;> simp
  rw [signedText, List.length_append, numeral, List.length_map, List.length_reverse]
  omega

/-- The decimal text is a text of digits. -/
theorem numeral_ten (n : Nat) : numeral 10 n = decimal n := by
  refine List.map_congr_left fun d hd => ?_
  rw [digitChar, if_pos (lowDigits_lt (by decide) n d (List.mem_reverse.1 hd)), digit]

/-- The array has the text, if there is room for it. -/
theorem emitNumber_text (hb : 2 ≤ b) (hb' : b ≤ 16) (n : Nat) (sign : Code) (str : Chars) :
    Runs allowed (emitNumber n b 0 sign str 0) fun q =>
      q.ok = decide ((signedText sign b n).length ≤ str.size) ∧ q.out.size = str.size ∧
        ((signedText sign b n).length ≤ str.size → q.out.text = signedText sign b n) := by
  rw [emitNumber, Nat.zero_sub, List.replicate_zero]
  have hsign : Runs allowed (if sign ≠ nul then emit str.size sign ⟨str, 0, true⟩ else .ok ⟨str, 0, true⟩)
      (Emitted str.size str.size true (if sign ≠ nul then [sign] else [])) := by
    split_ifs
    · exact emit_runs le_rfl (Emitted.start _ _) sign
    · exact Runs.ok (Emitted.start _ _)
  refine Runs.bind (show Runs allowed (emitAll str.size [] _) (· = _) from rfl) ?_
  rintro _ rfl
  refine hsign.bind fun q hq => (emitAll_runs le_rfl hq _).bind fun q' hq' => ?_
  have hq : Emitted str.size str.size true (signedText sign b n) q' := hq'
  have hpos := hq.pos
  have hsize := hq.size
  have hok := hq.ok
  rw [Bool.true_and] at hok
  by_cases hroom : q'.pos < str.size
  · rw [if_pos hroom]
    refine Runs.bind (hq.terminate hroom) fun out ⟨hpre, hout⟩ => Runs.ok ⟨hok, hout, fun hfits => ?_⟩
    obtain ⟨rest, hrest⟩ := hpre
    rw [List.take_of_length_le hfits, List.append_assoc] at hrest
    exact text_of_append hrest.symm (signedText_nul (by omega) hb' sign n)
  · rw [if_neg hroom]
    refine Runs.ok ⟨hok, hsize, fun hfits => ?_⟩
    have hcells : q'.out.cells = signedText sign b n := by
      refine List.ext_getElem? fun j => ?_
      by_cases hj : j < q'.pos
      · exact hq.cells j hj
      · have hlen : q'.out.cells.length = str.size := hsize
        rw [List.getElem?_eq_none (by omega), List.getElem?_eq_none (by omega)]
    rw [text_of_full (hcells ▸ signedText_nul (by omega) hb' sign n), hcells]

/-- With room for any text and its NUL, all is well. -/
theorem emitNumber_runs (hb : 2 ≤ b) (hb' : b ≤ 16) (hn : n < 2 ^ 64) (hsize : 66 ≤ str.size) (sign : Code) :
    Runs allowed (emitNumber n b 0 sign str 0) fun q =>
      q.ok = true ∧ q.out.text = signedText sign b n ∧ q.out.size = str.size := by
  have hlen := length_signedText hb sign hn
  refine (emitNumber_text hb hb' n sign str).mono fun q ⟨hok, hout, htext⟩ => ⟨?_, htext (by omega), hout⟩
  rw [hok, decide_eq_true (by omega)]

end NewM2.Winrt.Conversions
