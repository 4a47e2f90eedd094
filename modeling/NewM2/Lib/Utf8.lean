import Mathlib

/-!
# UTF-8 as lists of bytes

A text is the list of the bytes of its characters (`encode`). A byte below 128 stands for a character
of its own and the bytes of any other character are all from 128 on, so a valid text can be cut before
and after every ASCII byte (`encode_split`), and stays valid when runs of bytes that begin and end at
such places are made blank (`Masked.valid`).
-/

namespace NewM2.Utf8

/-- The bytes of the characters. -/
def encode (cs : List Char) : List UInt8 := cs.flatMap String.utf8EncodeChar

/-- The bytes of some characters. -/
def Valid (b : List UInt8) : Prop := ∃ cs, b = encode cs

/-- The text of bytes that are valid. -/
def decode (b : List UInt8) : Option String := String.fromUTF8? b.toByteArray

@[simp] theorem encode_nil : encode [] = [] := rfl

theorem encode_cons (c : Char) (cs : List Char) : encode (c :: cs) = String.utf8EncodeChar c ++ encode cs :=
  rfl

theorem encode_append (cs ds : List Char) : encode (cs ++ ds) = encode cs ++ encode ds :=
  List.flatMap_append

theorem encode_eq_nil {cs : List Char} : encode cs = [] ↔ cs = [] := by
  refine ⟨fun h => ?_, fun h => h ▸ rfl⟩
  rcases cs with - | ⟨c, cs⟩
  · rfl
  · have hpos := c.utf8Size_pos
    rw [← String.length_utf8EncodeChar, (List.append_eq_nil_iff.1 h).1] at hpos
    exact absurd hpos (Nat.lt_irrefl 0)

theorem Valid.nil : Valid [] := ⟨[], rfl⟩

theorem Valid.append {a b : List UInt8} (ha : Valid a) (hb : Valid b) : Valid (a ++ b) := by
  obtain ⟨cs, rfl⟩ := ha
  obtain ⟨ds, rfl⟩ := hb
  exact ⟨cs ++ ds, (encode_append cs ds).symm⟩

/-- A character is one ASCII byte, or none of its bytes is one. -/
theorem encodeChar_cases (c : Char) :
    (∃ b, String.utf8EncodeChar c = [b] ∧ b < 128 ∧ b.toNat = c.toNat) ∨
      ∀ b ∈ String.utf8EncodeChar c, 128 ≤ b := by
  have big : ∀ n : Nat, 128 ≤ n → n < 256 → 128 ≤ UInt8.ofNat n := by
    intro n hlo hhi
    rw [UInt8.le_iff_toNat_le, UInt8.toNat_ofNat', Nat.mod_eq_of_lt hhi]
    exact hlo
  unfold String.utf8EncodeChar
  simp only
  split_ifs with h1 h2 h3
  · refine .inl ⟨_, rfl, ?_, ?_⟩
    · rw [UInt8.lt_iff_toNat_lt, UInt8.toNat_ofNat']
      exact Nat.lt_of_le_of_lt (Nat.mod_le _ _) (Nat.lt_succ_of_le h1)
    · rw [UInt8.toNat_ofNat']
      exact Nat.mod_eq_of_lt (by omega)
  all_goals
    refine .inr ?_
    simp only [List.forall_mem_cons]
    refine ⟨big _ (by omega) (by omega), ?_⟩
  · exact ⟨big _ (by omega) (by omega), fun _ h => nomatch h⟩
  · exact ⟨big _ (by omega) (by omega), big _ (by omega) (by omega), fun _ h => nomatch h⟩
  · exact ⟨big _ (by omega) (by omega), big _ (by omega) (by omega), big _ (by omega) (by omega),
      fun _ h => nomatch h⟩

theorem valid_singleton {b : UInt8} (hb : b < 128) : Valid [b] := by
  have hnat : b.toNat < 128 := hb
  have hvalid : b.toNat.isValidChar := .inl (by omega)
  refine ⟨[Char.ofNat b.toNat], ?_⟩
  have hval : (Char.ofNat b.toNat).val.toNat = b.toNat := by
    rw [Char.ofNat, dif_pos hvalid]
    rfl
  rw [encode_cons, encode_nil, List.append_nil, String.utf8EncodeChar]
  simp only [hval]
  rw [if_pos (Nat.le_of_lt_succ hnat), UInt8.ofNat_toNat]

theorem valid_of_ascii {b : List UInt8} (h : ∀ x ∈ b, x < 128) : Valid b := by
  induction b with
  | nil => exact .nil
  | cons x xs ih =>
    obtain ⟨hx, hxs⟩ := List.forall_mem_cons.1 h
    exact (valid_singleton hx).append (ih hxs)

/-- An ASCII byte of a text is a character of it, between what stands before and behind it. -/
theorem encode_split {cs : List Char} {a b : List UInt8} {x : UInt8} (h : encode cs = a ++ x :: b)
    (hx : x < 128) : ∃ ds c es, cs = ds ++ c :: es ∧ encode ds = a ∧ encode [c] = [x] ∧ encode es = b := by
  induction cs generalizing a with
  | nil => exact absurd h.symm (List.append_ne_nil_of_right_ne_nil _ (List.cons_ne_nil _ _))
  | cons c cs ih =>
    rw [encode_cons] at h
    rcases List.append_eq_append_iff.1 h with ⟨t, rfl, ht⟩ | ⟨t, hc, ht⟩
    · obtain ⟨ds, d, es, rfl, rfl, hd, hes⟩ := ih ht
      exact ⟨c :: ds, d, es, rfl, encode_cons c ds, hd, hes⟩
    · rcases t with - | ⟨y, t⟩
      · rw [List.append_nil] at hc
        obtain ⟨ds, d, es, rfl, hds, hd, hes⟩ := ih (a := []) ht.symm
        refine ⟨c :: ds, d, es, rfl, ?_, hd, hes⟩
        rw [encode_cons, hds, List.append_nil, hc]
      · -- the byte is in the first character, so it is the whole of it
        obtain ⟨rfl, hb⟩ := List.cons.inj ht
        rcases encodeChar_cases c with ⟨z, hz, -⟩ | hbig
        · rw [hz] at hc
          rcases a with - | ⟨w, a⟩
          · obtain ⟨rfl, rfl⟩ := List.cons.inj hc
            exact ⟨[], c, cs, rfl, rfl, by rw [encode_cons, hz, encode_nil, List.append_nil], hb.symm⟩
          · simp at hc
        · have hx' := hbig x (by rw [hc]; simp)
          exact absurd hx (UInt8.not_lt.2 hx')

theorem Valid.split {a b : List UInt8} {x : UInt8} (h : Valid (a ++ x :: b)) (hx : x < 128) :
    Valid a ∧ Valid b := by
  obtain ⟨cs, hcs⟩ := h
  obtain ⟨ds, c, es, -, hds, -, hes⟩ := encode_split hcs.symm hx
  exact ⟨⟨ds, hds.symm⟩, ⟨es, hes.symm⟩⟩

theorem Valid.split_behind {a b : List UInt8} (h : Valid (a ++ b)) (ha : ∀ x ∈ a.getLast?, x < 128) :
    Valid a ∧ Valid b := by
  rcases List.eq_nil_or_concat' a with rfl | ⟨a', x, rfl⟩
  · exact ⟨.nil, h⟩
  · have hx : x < 128 := ha x List.getLast?_concat
    rw [List.append_assoc, List.singleton_append] at h
    exact ⟨(h.split hx).1.append (valid_singleton hx), (h.split hx).2⟩

/-! ## Places between characters -/

/-- The characters of the first `n` bytes of a text. -/
def Boundary (cs : List Char) (n : Nat) : Prop := ∃ ds es, cs = ds ++ es ∧ (encode ds).length = n

theorem boundary_length (cs : List Char) : Boundary cs (encode cs).length :=
  ⟨cs, [], (List.append_nil cs).symm, rfl⟩

theorem boundary_before {cs : List Char} {a b : List UInt8} {x : UInt8} (h : encode cs = a ++ x :: b)
    (hx : x < 128) : Boundary cs a.length := by
  obtain ⟨ds, c, es, hcs, rfl, -, -⟩ := encode_split h hx
  exact ⟨ds, c :: es, hcs, rfl⟩

theorem boundary_behind {cs : List Char} {a b : List UInt8} {x : UInt8} (h : encode cs = a ++ x :: b)
    (hx : x < 128) : Boundary cs (a.length + 1) := by
  obtain ⟨ds, c, es, rfl, rfl, hc, -⟩ := encode_split h hx
  refine ⟨ds ++ [c], es, by simp, ?_⟩
  rw [encode_append, hc, List.length_append, List.length_singleton]

theorem decode_isSome {b : List UInt8} : (decode b).isSome ↔ Valid b := by
  unfold decode String.fromUTF8?
  have hiff : b.toByteArray.IsValidUTF8 ↔ Valid b := by
    constructor
    · rintro ⟨cs, h⟩
      refine ⟨cs, ?_⟩
      have hdata := congrArg (·.data.toList) h
      simpa [List.utf8Encode, encode] using hdata
    · rintro ⟨cs, rfl⟩
      exact ⟨cs, rfl⟩
  split_ifs with h
  · exact ⟨fun _ => hiff.1 h, fun _ => rfl⟩
  · exact ⟨(fun h' => nomatch h'), fun h' => absurd (hiff.2 h') h⟩

/-! ## Texts of which a part is blank -/

section Masked
variable {blank : UInt8 → UInt8}

/-- The second text is the first one, of which some bytes were made blank: an ASCII byte for itself,
any other byte like the one before it. `keep` says what became of the last one. -/
inductive Masked (blank : UInt8 → UInt8) : Bool → List UInt8 → List UInt8 → Prop
  | nil (keep : Bool) : Masked blank keep [] []
  | ascii {keep : Bool} {a b : List UInt8} {c o : UInt8} (keep' : Bool) (hc : c < 128)
      (ho : o = c ∨ o = blank c) : Masked blank keep a b → Masked blank keep' (a ++ [c]) (b ++ [o])
  | more {keep : Bool} {a b : List UInt8} (c : UInt8) :
      Masked blank keep a b → Masked blank keep (a ++ [c]) (b ++ [if keep then c else blank c])

namespace Masked
variable {keep : Bool} {a b : List UInt8}

theorem append (h : Masked blank keep a b) (cs : List UInt8) :
    Masked blank keep (a ++ cs) (b ++ cs.map fun c => if keep then c else blank c) := by
  induction cs generalizing a b with
  | nil => rwa [List.map_nil, List.append_nil, List.append_nil]
  | cons c cs ih => simpa using ih (h.more c)

theorem forall₂ (h : Masked blank keep a b) : List.Forall₂ (fun c o => o = c ∨ o = blank c) a b := by
  induction h with
  | nil => exact .nil
  | ascii keep' hc ho _ ih => exact List.rel_append ih (.cons ho .nil)
  | @more keep a b c _ ih =>
    refine List.rel_append ih (.cons ?_ .nil)
    cases keep
    · exact .inr rfl
    · exact .inl rfl

/-- What became of bytes that were all treated alike. -/
theorem valid_alike (hblank : ∀ c, blank c < 128) {run : List UInt8} (keep : Bool) (h : Valid run) :
    Valid (run.map fun c => if keep then c else blank c) := by
  cases keep
  · refine valid_of_ascii fun c hc => ?_
    obtain ⟨d, -, rfl⟩ := List.mem_map.1 hc
    exact hblank d
  · simpa using h

/-- Since the last ASCII byte all bytes were treated alike. -/
theorem exists_run (hblank : ∀ c, blank c < 128) (h : Masked blank keep a b) :
    ∃ a₁ b₁ run, a = a₁ ++ run ∧ b = b₁ ++ run.map (fun c => if keep then c else blank c) ∧
      (∀ x ∈ a₁.getLast?, x < 128) ∧ (Valid a₁ → Valid b₁) := by
  have hstep {keep : Bool} {a₁ b₁ run : List UInt8} {c o : UInt8} (ha₁ : ∀ x ∈ a₁.getLast?, x < 128)
      (hb₁ : Valid a₁ → Valid b₁) (hc : c < 128) (ho : o = c ∨ o = blank c) :
      Valid (a₁ ++ run ++ [c]) → Valid (b₁ ++ run.map (fun c => if keep then c else blank c) ++ [o]) := by
    intro h
    obtain ⟨hvalid₁, hrun⟩ := (h.split hc).1.split_behind ha₁
    have ho' : o < 128 := by
      rcases ho with rfl | rfl
      · exact hc
      · exact hblank c
    exact ((hb₁ hvalid₁).append (valid_alike hblank keep hrun)).append (valid_singleton ho')
  induction h with
  | nil keep => exact ⟨[], [], [], rfl, rfl, by simp, fun _ => .nil⟩
  | @ascii keep a b c o keep' hc ho _ ih =>
    obtain ⟨a₁, b₁, run, rfl, rfl, ha₁, hb₁⟩ := ih
    refine ⟨_, _, [], (List.append_nil _).symm, (List.append_nil _).symm, ?_, hstep ha₁ hb₁ hc ho⟩
    simpa using hc
  | @more keep a b c _ ih =>
    obtain ⟨a₁, b₁, run, rfl, rfl, ha₁, hb₁⟩ := ih
    exact ⟨a₁, b₁, run ++ [c], by simp, by simp, ha₁, hb₁⟩

theorem valid (hblank : ∀ c, blank c < 128) (h : Masked blank keep a b) (ha : Valid a) : Valid b := by
  obtain ⟨a₁, b₁, run, rfl, rfl, ha₁, hb₁⟩ := h.exists_run hblank
  obtain ⟨hvalid₁, hrun⟩ := ha.split_behind ha₁
  exact (hb₁ hvalid₁).append (valid_alike hblank keep hrun)

end Masked
end Masked

end NewM2.Utf8
