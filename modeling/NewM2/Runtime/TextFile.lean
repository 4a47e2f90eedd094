import NewM2.Lib.Utf8
import NewM2.Lib.Utf16

/-! # Text files (`newm2-runtime/src/file.rs`, `render_utf16_units` in `io.rs`)

A text of UTF-16 units is stored as UTF-8 and decoded in chunks into buffers of units. `TextFile.round_trip`:
it is read back in full just when no buffer of one unit meets a character that takes two. The file is a
regular one, of which a read gives as many bytes as there are. -/

namespace NewM2.TextFile

/-- The bytes of a file, and where the next read or write begins. -/
structure File where
  bytes : List UInt8
  pos : Nat

namespace File

/-- A file that was just created. -/
def new : File := ⟨[], 0⟩

def read (f : File) (n : Nat) : List UInt8 × File :=
  let chunk := (f.bytes.drop f.pos).take n
  (chunk, { f with pos := f.pos + chunk.length })

def writeAll (f : File) (bytes : List UInt8) : File where
  bytes := f.bytes.take f.pos ++ bytes ++ f.bytes.drop (f.pos + bytes.length)
  pos := f.pos + bytes.length

/-- `nm2_file_seek`. -/
def seek (f : File) (offset : Nat) : File := { f with pos := offset }

/-- A seek backwards. -/
def back (f : File) (n : Nat) : File := { f with pos := f.pos - n }

end File

/-! ## Writing -/

/-- An upper-case hexadecimal digit. -/
def hexDigit (d : Nat) : Char := if d < 10 then .ofNat (0x30 + d) else .ofNat (0x37 + d)

/-- What stands for a unit that belongs to no pair: `\u` and its four digits in braces. -/
def escape (u : UInt16) : List Char :=
  ['\\', 'u', Char.ofNat 0x7B] ++
    [u.toNat / 0x1000, u.toNat / 0x100 % 0x10, u.toNat / 0x10 % 0x10, u.toNat % 0x10].map hexDigit ++ [Char.ofNat 0x7D]

def renderUtf16Units (units : List UInt16) : List Char :=
  (Utf16.decode units).flatMap fun
    | .ok c => [c]
    | .error u => escape u

/-- `nm2_file_write_text`: the number of units written, and the file. -/
def writeText (f : File) (units : List UInt16) : Nat × File :=
  if units.length = 0 then (0, f) else (units.length, f.writeAll (Utf8.encode (renderUtf16Units units)))

/-! ## Reading -/

/-- The bytes of a character by its first one; a stray continuation byte stands for itself. -/
def seqLen (b₀ : UInt8) : Nat :=
  if b₀ < 0x80 then 1
  else if 0xC0 ≤ b₀ ∧ b₀ < 0xE0 then 2
  else if 0xE0 ≤ b₀ ∧ b₀ < 0xF0 then 3
  else if 0xF0 ≤ b₀ then 4
  else 1

def codePoint : List UInt8 → Nat
  | [b₀] => b₀.toNat
  | [b₀, b₁] => (b₀.toNat &&& 0x1F) <<< 6 ||| (b₁.toNat &&& 0x3F)
  | [b₀, b₁, b₂] => (b₀.toNat &&& 0x0F) <<< 12 ||| (b₁.toNat &&& 0x3F) <<< 6 ||| (b₂.toNat &&& 0x3F)
  | [b₀, b₁, b₂, b₃] =>
    (b₀.toNat &&& 0x07) <<< 18 ||| (b₁.toNat &&& 0x3F) <<< 12 ||| (b₂.toNat &&& 0x3F) <<< 6 ||| (b₃.toNat &&& 0x3F)
  | _ => 0

/-- How decoding a chunk ends: the units in the buffer, the bytes that are given back to the file, and whether
the buffer is done with. -/
structure ChunkEnd where
  out : List UInt16
  unread : Nat
  done : Bool

theorem seqLen_pos (b₀ : UInt8) : 0 < seqLen b₀ := by
  unfold seqLen
  split_ifs <;> decide

/-- Decode a chunk into a buffer of `cap` units, which holds `out`. -/
def readChunk (cap : Nat) (atEof : Bool) (out : List UInt16) : List UInt8 → ChunkEnd
  | [] => ⟨out, 0, false⟩
  | b₀ :: rest =>
    if cap ≤ out.length then ⟨out, rest.length + 1, true⟩
    else if rest.length + 1 < seqLen b₀ then
      -- cut off: by the end of the file, or by that of the chunk
      if atEof then readChunk cap atEof (out ++ [b₀.toUInt16]) rest else ⟨out, rest.length + 1, false⟩
    else
      let cp := codePoint ((b₀ :: rest).take (seqLen b₀))
      if cp ≤ 0xFFFF then readChunk cap atEof (out ++ [.ofNat cp]) ((b₀ :: rest).drop (seqLen b₀))
      else if cap < out.length + 2 then ⟨out, rest.length + 1, true⟩
      else
        let v := cp - 0x10000
        readChunk cap atEof (out ++ [.ofNat (0xD800 + v >>> 10), .ofNat (0xDC00 + (v &&& 0x3FF))])
          ((b₀ :: rest).drop (seqLen b₀))
termination_by chunk => chunk.length
decreasing_by
  · exact Nat.lt_succ_self _
  all_goals
    have := seqLen_pos b₀
    rw [List.length_drop, List.length_cons]
    omega

/-- The loop over the chunks, for at most `fuel` of them. -/
def readFrom (cap : Nat) : Nat → List UInt16 → File → Option (List UInt16 × File)
  | 0, _, _ => none
  | fuel + 1, out, f =>
    if out.length < cap then
      let (chunk, f) := f.read 4096
      if chunk = [] then some (out, f)
      else
        let e := readChunk cap (chunk.length < 4096) out chunk
        let f := f.back e.unread
        if e.done then some (e.out, f) else readFrom cap fuel e.out f
    else some (out, f)

/-- `nm2_file_read_text`: the units read, and the file. -/
def readText (f : File) (max : Nat) : Option (List UInt16 × File) :=
  if max = 0 then some ([], f) else readFrom max (f.bytes.length + 1) [] f

/-- Read with buffers of these capacities until nothing is read, at most `fuel` times. -/
def readAll : Nat → (Nat → Nat) → File → Option (List UInt16)
  | 0, _, _ => none
  | fuel + 1, caps, f =>
    match readText f (caps 0) with
    | none => none
    | some (piece, f) =>
      if piece = [] then some [] else (readAll fuel (fun k => caps (k + 1)) f).map (piece ++ ·)

/-! ## The bytes of a character -/

theorem toNat_ofNat_byte {n : Nat} (h : n < 256) : (UInt8.ofNat n).toNat = n := by
  rw [UInt8.toNat_ofNat']
  exact Nat.mod_eq_of_lt h

theorem seqLen_eq {n : Nat} (h : n < 256) : seqLen (.ofNat n) =
    if n < 0x80 then 1 else if 0xC0 ≤ n ∧ n < 0xE0 then 2 else if 0xE0 ≤ n ∧ n < 0xF0 then 3
      else if 0xF0 ≤ n then 4 else 1 := by
  simp only [seqLen, UInt8.lt_iff_toNat_lt, UInt8.le_iff_toNat_le, toNat_ofNat_byte h]
  rfl

/-- The bits of a continuation byte, and those of a first byte. -/
theorem and_low (a : Nat) {k n : Nat} (h : n < 2 ^ k) : (n + a * 2 ^ k) &&& (2 ^ k - 1) = n := by
  rw [Nat.and_two_pow_sub_one_eq_mod, Nat.add_mul_mod_self_right, Nat.mod_eq_of_lt h]

theorem shiftLeft_or (a : Nat) {b k : Nat} (h : b < 2 ^ k) : a <<< k ||| b = a * 2 ^ k + b := by
  rw [Nat.shiftLeft_eq, Nat.mul_comm, Nat.two_pow_add_eq_or_of_lt h]

theorem shiftLeft_or_shiftLeft (a b j : Nat) : a <<< (6 + j) ||| b <<< j = (a <<< 6 ||| b) <<< j := by
  rw [Nat.shiftLeft_or_distrib, Nat.shiftLeft_add]

theorem and_cont (n : Nat) : (n % 0x40 + 0x80) &&& 0x3F = n % 0x40 :=
  and_low 2 (k := 6) (Nat.mod_lt _ (by decide))

/-- A character is decoded from its bytes. -/
theorem codePoint_encodeChar (c : Char) : ∃ b₀ tail, String.utf8EncodeChar c = b₀ :: tail ∧
    seqLen b₀ = tail.length + 1 ∧ codePoint (b₀ :: tail) = c.toNat := by
  have hvalid := Utf16.toNat_lt_or c
  have hval : c.val.toNat = c.toNat := rfl
  unfold String.utf8EncodeChar
  simp only [hval]
  generalize c.toNat = v at hvalid
  have hcont (n : Nat) : (UInt8.ofNat (n % 0x40 + 0x80)).toNat = n % 0x40 + 0x80 := toNat_ofNat_byte (by omega)
  have hlt (n : Nat) : n % 0x40 < 2 ^ 6 := Nat.mod_lt _ (by decide)
  split_ifs with h₁ h₂ h₃
  · refine ⟨_, _, rfl, ?_, toNat_ofNat_byte (by omega)⟩
    rw [seqLen_eq (by omega), if_pos (by omega)]
    rfl
  · have hhead : (v / 64 % 0x20 + 0xC0) &&& 0x1F = v / 64 % 0x20 := and_low 6 (k := 5) (Nat.mod_lt _ (by decide))
    refine ⟨_, _, rfl, ?_, ?_⟩
    · rw [seqLen_eq (by omega), if_neg (by omega), if_pos (by omega)]
      rfl
    · rw [codePoint, toNat_ofNat_byte (by omega), hcont, hhead, and_cont, shiftLeft_or _ (hlt v)]
      omega
  · have hhead : (v / 4096 % 0x10 + 0xE0) &&& 0x0F = v / 4096 % 0x10 := and_low 14 (k := 4) (Nat.mod_lt _ (by decide))
    refine ⟨_, _, rfl, ?_, ?_⟩
    · rw [seqLen_eq (by omega), if_neg (by omega), if_neg (by omega), if_pos (by omega)]
      rfl
    · rw [codePoint, toNat_ofNat_byte (by omega), hcont, hcont, hhead, and_cont, and_cont,
        shiftLeft_or_shiftLeft _ _ 6, shiftLeft_or _ (hlt (v / 64)), shiftLeft_or _ (hlt v)]
      omega
  · have hhead : (v / 262144 % 0x08 + 0xF0) &&& 0x07 = v / 262144 % 0x08 :=
      and_low 30 (k := 3) (Nat.mod_lt _ (by decide))
    refine ⟨_, _, rfl, ?_, ?_⟩
    · rw [seqLen_eq (by omega), if_neg (by omega), if_neg (by omega), if_neg (by omega), if_pos (by omega)]
      rfl
    · rw [codePoint, toNat_ofNat_byte (by omega), hcont, hcont, hcont, hhead, and_cont, and_cont, and_cont,
        shiftLeft_or_shiftLeft _ _ 12, shiftLeft_or_shiftLeft _ _ 6, shiftLeft_or _ (hlt (v / 4096)),
        shiftLeft_or _ (hlt (v / 64)), shiftLeft_or _ (hlt v)]
      omega

/-! ## Decoding a chunk -/

section chunk
variable {cap : Nat} {atEof : Bool} {out : List UInt16} {chunk : List UInt8} {c : Char}

/-- The character fits into what is left of a buffer of `cap` units. -/
def Fits (cap : Nat) (out : List UInt16) (c : Char) : Prop := out.length + (Utf16.encodeChar c).length ≤ cap

theorem readChunk_full (hfull : cap ≤ out.length) (hne : chunk ≠ []) :
    readChunk cap atEof out chunk = ⟨out, chunk.length, true⟩ := by
  obtain ⟨b₀, rest, rfl⟩ := List.exists_cons_of_ne_nil hne
  rw [readChunk, if_pos hfull]
  rfl

/-- The first bytes of a character that the chunk cuts off. -/
theorem readChunk_cut (hroom : out.length < cap) (hne : chunk ≠ []) {tail : List UInt8}
    (hcut : String.utf8EncodeChar c = chunk ++ tail) (htail : tail ≠ []) :
    readChunk cap false out chunk = ⟨out, chunk.length, false⟩ := by
  obtain ⟨b₀, rest, rfl⟩ := List.exists_cons_of_ne_nil hne
  obtain ⟨b, more, hbytes, hlen, -⟩ := codePoint_encodeChar c
  obtain ⟨rfl, rfl⟩ := List.cons.inj (hbytes.symm.trans hcut)
  have hpos := List.length_pos_iff.2 htail
  have hsum : (rest.append tail).length = rest.length + tail.length := List.length_append
  rw [readChunk, if_neg (by omega), if_pos (by omega)]
  rfl

theorem readChunk_char (hroom : out.length < cap) (c : Char) (tail : List UInt8) :
    readChunk cap atEof out (String.utf8EncodeChar c ++ tail) =
      if out.length + (Utf16.encodeChar c).length ≤ cap then readChunk cap atEof (out ++ Utf16.encodeChar c) tail
      else ⟨out, (String.utf8EncodeChar c ++ tail).length, true⟩ := by
  obtain ⟨b₀, more, hbytes, hlen, hcode⟩ := codePoint_encodeChar c
  have htake : (b₀ :: (more ++ tail)).take (seqLen b₀) = b₀ :: more := by
    rw [hlen, List.take_succ_cons, List.take_left]
  have hdrop : (b₀ :: (more ++ tail)).drop (seqLen b₀) = tail := by
    rw [hlen, List.drop_succ_cons, List.drop_left]
  have hcomplete : ¬ (more ++ tail).length + 1 < seqLen b₀ := by
    rw [hlen, List.length_append]
    omega
  rw [hbytes, List.cons_append, readChunk, if_neg (by omega), if_neg hcomplete]
  simp only [htake, hdrop, hcode]
  by_cases hplane : c.toNat < 0x10000
  · have hunits : Utf16.encodeChar c = [.ofNat c.toNat] := if_pos hplane
    have hfits : out.length + [UInt16.ofNat c.toNat].length ≤ cap := hroom
    rw [hunits, if_pos (Nat.le_of_lt_succ hplane), if_pos hfits]
  · have hunits : Utf16.encodeChar c = [.ofNat (0xD800 + (c.toNat - 0x10000) >>> 10),
        .ofNat (0xDC00 + ((c.toNat - 0x10000) &&& 0x3FF))] := by
      rw [Nat.shiftRight_eq_div_pow, Nat.and_two_pow_sub_one_eq_mod _ 10]
      exact if_neg hplane
    have hlen : (Utf16.encodeChar c).length = 2 := by rw [Utf16.length_encodeChar, if_neg hplane]
    by_cases hfits : out.length + (Utf16.encodeChar c).length ≤ cap
    · rw [if_neg (by omega), if_neg (by omega), if_pos hfits, hunits]
    · rw [if_neg (by omega), if_pos (by omega), if_neg hfits]
      rfl

/-- Of the characters `cs`, of which the chunk has the first `m` bytes, `ds` were decoded into the buffer. -/
structure Decoded (cap m : Nat) (out : List UInt16) (cs ds es : List Char) (e : ChunkEnd) : Prop where
  split : cs = ds ++ es
  out : e.out = out ++ Utf16.encode ds
  le : e.out.length ≤ cap
  unread : (Utf8.encode ds).length + e.unread = min m (Utf8.encode cs).length
  done : e.done = true → ∃ c ∈ es.head?, ¬ Fits cap e.out c
  cut : e.done = false → ∀ c ∈ es.head?, m < (Utf8.encode ds).length + (String.utf8EncodeChar c).length

theorem Decoded.cons {m : Nat} {cs ds es : List Char} {e : ChunkEnd} (c : Char)
    (hle : (String.utf8EncodeChar c).length ≤ m)
    (h : Decoded cap (m - (String.utf8EncodeChar c).length) (out ++ Utf16.encodeChar c) cs ds es e) :
    Decoded cap m out (c :: cs) (c :: ds) es e where
  split := by rw [h.split, List.cons_append]
  out := by rw [h.out, Utf16.encode_cons, List.append_assoc]
  le := h.le
  unread := by
    have hunread := h.unread
    rw [Utf8.encode_cons, Utf8.encode_cons, List.length_append, List.length_append]
    omega
  done := h.done
  cut hcut d hd := by
    have hlt := h.cut hcut d hd
    rw [Utf8.encode_cons, List.length_append]
    omega

theorem readChunk_spec (atEof : Bool) (cs : List Char) (m : Nat) (hle : out.length ≤ cap)
    (heof : atEof = true → (Utf8.encode cs).length ≤ m) :
    ∃ ds es, Decoded cap m out cs ds es (readChunk cap atEof out ((Utf8.encode cs).take m)) := by
  induction cs generalizing out m with
  | nil =>
    refine ⟨[], [], rfl, ?_, ?_, ?_, ?_, ?_⟩
    all_goals simp [readChunk, hle]
  | cons c cs ih =>
    have hbytes : 0 < (String.utf8EncodeChar c).length := by
      obtain ⟨b₀, tail, heq, -⟩ := codePoint_encodeChar c
      rw [heq]
      exact Nat.succ_pos _
    rw [Utf8.encode_cons] at heof ⊢
    rcases Nat.eq_zero_or_pos m with rfl | hm
    · refine ⟨[], c :: cs, rfl, by simp [readChunk], by simpa [readChunk], by simp [readChunk], ?_, fun _ d hd => ?_⟩
      · simp [readChunk]
      · obtain rfl := Option.some.inj hd
        simpa using hbytes
    have hlen : ((String.utf8EncodeChar c ++ Utf8.encode cs).take m).length =
        min m (String.utf8EncodeChar c ++ Utf8.encode cs).length := List.length_take
    have hne : (String.utf8EncodeChar c ++ Utf8.encode cs).take m ≠ [] := by
      rw [← List.length_pos_iff, hlen, List.length_append]
      omega
    have hnone {e : ChunkEnd} (hout : e.out = out) (hunread : e.unread = min m (String.utf8EncodeChar c ++ Utf8.encode cs).length)
        (hdone : e.done = true → ¬ Fits cap out c) (hcut : e.done = false → m < (String.utf8EncodeChar c).length) :
        Decoded cap m out (c :: cs) [] (c :: cs) e := by
      refine ⟨rfl, by rw [hout, Utf16.encode_nil, List.append_nil], hout ▸ hle, ?_, fun h => ⟨c, rfl, hout ▸ hdone h⟩,
        fun h d hd => ?_⟩
      · rw [Utf8.encode_nil, List.length_nil, Nat.zero_add, hunread, Utf8.encode_cons]
      · obtain rfl := Option.some.inj hd
        rw [Utf8.encode_nil, List.length_nil, Nat.zero_add]
        exact hcut h
    rcases Nat.lt_or_ge out.length cap with hroom | hfull
    swap
    · refine ⟨[], c :: cs, ?_⟩
      rw [readChunk_full hfull hne]
      refine hnone rfl hlen (fun _ hfits => ?_) nofun
      have hunits := Utf16.length_encodeChar_pos c
      unfold Fits at hfits
      omega
    rcases Nat.lt_or_ge m (String.utf8EncodeChar c).length with hcut | hle
    · -- the chunk ends in the middle of the character
      have heof : atEof = false := by
        by_contra h
        have := heof (Bool.not_eq_false _ ▸ h)
        rw [List.length_append] at this
        omega
      refine ⟨[], c :: cs, ?_⟩
      have htake : (String.utf8EncodeChar c ++ Utf8.encode cs).take m = (String.utf8EncodeChar c).take m :=
        List.take_append_of_le_length hcut.le
      rw [htake] at hne hlen ⊢
      rw [heof, readChunk_cut hroom hne (List.take_append_drop m _).symm (by simpa using hcut)]
      exact hnone rfl hlen nofun fun _ => hcut
    · have htake : (String.utf8EncodeChar c ++ Utf8.encode cs).take m =
          String.utf8EncodeChar c ++ (Utf8.encode cs).take (m - (String.utf8EncodeChar c).length) := by
        rw [List.take_append, List.take_of_length_le hle]
      by_cases hfits : out.length + (Utf16.encodeChar c).length ≤ cap
      · have hle' : (out ++ Utf16.encodeChar c).length ≤ cap := by rwa [List.length_append]
        obtain ⟨ds, es, h⟩ := ih (m - (String.utf8EncodeChar c).length) hle' fun h => by
          have := heof h
          rw [List.length_append] at this
          omega
        refine ⟨c :: ds, es, ?_⟩
        rw [htake, readChunk_char hroom, if_pos hfits]
        exact h.cons c hle
      · refine ⟨[], c :: cs, ?_⟩
        rw [htake, readChunk_char hroom, if_neg hfits, ← htake]
        exact hnone rfl hlen (fun _ => hfits) nofun

/-- Of `cs` the characters `ds` are in the buffer, and the next one does not fit. -/
structure Filled (cap : Nat) (out : List UInt16) (cs ds es : List Char) : Prop where
  split : cs = ds ++ es
  le : (out ++ Utf16.encode ds).length ≤ cap
  full : ∀ c ∈ es.head?, ¬ Fits cap (out ++ Utf16.encode ds) c

theorem length_encodeChar_le (c : Char) : (String.utf8EncodeChar c).length ≤ 4 := by
  obtain ⟨b₀, tail, heq, hlen, -⟩ := codePoint_encodeChar c
  have hle : seqLen b₀ ≤ 4 := by
    unfold seqLen
    split_ifs <;> decide
  rw [heq, List.length_cons]
  omega

theorem readFrom_spec (fuel : Nat) (out : List UInt16) {cs : List Char} {f : File} (hbytes : f.bytes.drop f.pos = Utf8.encode cs)
    (hle : out.length ≤ cap) (hfuel : (Utf8.encode cs).length < fuel) : ∃ ds es, Filled cap out cs ds es ∧
      readFrom cap fuel out f =
        some (out ++ Utf16.encode ds, { f with pos := f.pos + (Utf8.encode ds).length }) := by
  induction fuel generalizing cs f out with
  | zero => exact absurd hfuel (Nat.not_lt_zero _)
  | succ fuel ih =>
    rcases Nat.lt_or_ge out.length cap with hroom | hfull
    swap
    · refine ⟨[], cs, ⟨rfl, by simpa using hle, fun c _ hfits => ?_⟩, ?_⟩
      · have hunits := Utf16.length_encodeChar_pos c
        rw [Utf16.encode_nil, List.append_nil] at hfits
        unfold Fits at hfits
        omega
      · rw [readFrom, if_neg (by omega), Utf16.encode_nil, List.append_nil]
        rfl
    have hlen : ((Utf8.encode cs).take 4096).length = min 4096 (Utf8.encode cs).length := List.length_take
    obtain ⟨ds, es, h⟩ := readChunk_spec (decide (((Utf8.encode cs).take 4096).length < 4096)) cs 4096 hle
      fun heof => by
        have hlt := of_decide_eq_true heof
        omega
    have hread : f.read 4096 = ((Utf8.encode cs).take 4096, { f with pos := f.pos + ((Utf8.encode cs).take 4096).length }) := by
      rw [File.read, hbytes]
    rw [readFrom, if_pos hroom, hread]
    by_cases hnil : (Utf8.encode cs).take 4096 = []
    · have hcs : cs = [] := by
        rw [hnil, List.length_nil] at hlen
        rw [← Utf8.encode_eq_nil, ← List.length_eq_zero_iff]
        omega
      subst hcs
      refine ⟨[], [], ⟨rfl, by simpa using hle, by simp⟩, ?_⟩
      simp
    have hpos : f.pos + ((Utf8.encode cs).take 4096).length -
        (readChunk cap (decide (((Utf8.encode cs).take 4096).length < 4096)) out ((Utf8.encode cs).take 4096)).unread =
          f.pos + (Utf8.encode ds).length := by
      have hunread := h.unread
      omega
    have hdrop : f.bytes.drop (f.pos + (Utf8.encode ds).length) = Utf8.encode es := by
      rw [← List.drop_drop, hbytes, h.split, Utf8.encode_append, List.drop_left]
    simp only [if_neg hnil, File.back, hpos]
    have hout := h.out
    have hle := h.le
    have hdone := h.done
    have hcut := h.cut
    rw [hout] at hle hdone
    cases hd : (readChunk cap (decide (((Utf8.encode cs).take 4096).length < 4096)) out ((Utf8.encode cs).take 4096)).done
    · -- the next chunk begins with the character that was cut off
      have hprogress : 0 < (Utf8.encode ds).length := by
        rw [List.length_pos_iff, ne_eq, Utf8.encode_eq_nil]
        rintro rfl
        rcases es with - | ⟨c, es⟩
        · rw [h.split, List.nil_append, Utf8.encode_nil, List.take_nil] at hnil
          exact hnil rfl
        · have hlt := hcut hd c rfl
          have hfour := length_encodeChar_le c
          rw [Utf8.encode_nil, List.length_nil] at hlt
          omega
      have hlength : (Utf8.encode cs).length = (Utf8.encode ds).length + (Utf8.encode es).length := by
        rw [h.split, Utf8.encode_append, List.length_append]
      obtain ⟨ds₂, es₂, hfilled, hread⟩ := ih _ (f := { f with pos := f.pos + (Utf8.encode ds).length }) hdrop hle (by omega)
      refine ⟨ds ++ ds₂, es₂, ⟨?_, ?_, ?_⟩, ?_⟩
      · rw [List.append_assoc, ← hfilled.split, h.split]
      · rw [Utf16.encode_append, ← List.append_assoc]
        exact hfilled.le
      · rw [Utf16.encode_append, ← List.append_assoc]
        exact hfilled.full
      · rw [hout, Utf16.encode_append, ← List.append_assoc, Utf8.encode_append, List.length_append, ← Nat.add_assoc]
        exact hread
    · obtain ⟨c, hc, hfits⟩ := hdone hd
      refine ⟨ds, es, ⟨h.split, hle, fun d hd' => ?_⟩, by rw [hout]; rfl⟩
      obtain rfl := Option.some.inj (hc.symm.trans hd')
      exact hfits

theorem readText_spec {cs : List Char} {f : File} (hbytes : f.bytes.drop f.pos = Utf8.encode cs) (hcap : 0 < cap) :
    ∃ ds es, Filled cap [] cs ds es ∧
      readText f cap = some (Utf16.encode ds, { f with pos := f.pos + (Utf8.encode ds).length }) := by
  have hlen : (Utf8.encode cs).length < f.bytes.length + 1 := by
    rw [← hbytes, List.length_drop]
    omega
  obtain ⟨ds, es, hfilled, hread⟩ := readFrom_spec (f.bytes.length + 1) [] hbytes (Nat.zero_le cap) hlen
  refine ⟨ds, es, hfilled, ?_⟩
  rw [readText, if_neg hcap.ne']
  exact hread

end chunk

/-! ## Reading with one buffer after the other -/

/-- What a buffer of `cap` units leaves of a text. -/
def leftOver : Nat → List Char → List Char
  | _, [] => []
  | cap, c :: cs =>
    if (Utf16.encodeChar c).length ≤ cap then leftOver (cap - (Utf16.encodeChar c).length) cs else c :: cs

/-- What is left of a text when `k` buffers are filled. -/
def unread : (Nat → Nat) → List Char → Nat → List Char
  | _, cs, 0 => cs
  | caps, cs, k + 1 => unread (fun i => caps (i + 1)) (leftOver (caps 0) cs) k

/-- No buffer of one unit meets a character that takes two. -/
def Served (caps : Nat → Nat) (cs : List Char) : Prop :=
  ∀ k, ∀ c ∈ (unread caps cs k).head?, 0x10000 ≤ c.toNat → caps k ≠ 1

section buffers
variable {caps : Nat → Nat} {cs ds es : List Char} {cap : Nat}

theorem Filled.leftOver_eq (h : Filled cap [] cs ds es) : leftOver cap cs = es := by
  obtain ⟨rfl, hle, hfull⟩ := h
  induction ds generalizing cap with
  | nil =>
    rcases es with - | ⟨c, es⟩
    · rfl
    · have hfits := hfull c rfl
      simp only [Fits, Utf16.encode_nil, List.append_nil, List.length_nil, Nat.zero_add] at hfits
      rw [List.nil_append, leftOver, if_neg hfits]
  | cons c ds ih =>
    simp only [Utf16.encode_cons, List.nil_append, List.length_append] at hle hfull
    rw [List.cons_append, leftOver, if_pos (by omega)]
    refine ih ?_ fun d hd hfits => hfull d hd ?_
    · rw [List.nil_append]
      omega
    · simp only [Fits, List.nil_append, List.length_append] at hfits ⊢
      omega

theorem unread_nil (caps : Nat → Nat) (k : Nat) : unread caps [] k = [] := by
  induction k generalizing caps with
  | zero => rfl
  | succ k ih => exact ih _

theorem served_nil (caps : Nat → Nat) : Served caps [] := by
  intro k c hc
  rw [unread_nil] at hc
  cases hc

theorem served_iff (cs : List Char) : Served caps cs ↔ (∀ c ∈ cs.head?, 0x10000 ≤ c.toNat → caps 0 ≠ 1) ∧
    Served (fun k => caps (k + 1)) (leftOver (caps 0) cs) := by
  refine ⟨fun h => ⟨h 0, fun k => h (k + 1)⟩, fun ⟨hzero, hsucc⟩ k => ?_⟩
  cases k with
  | zero => exact hzero
  | succ k => exact hsucc k

theorem readAll_spec (fuel : Nat) (hcaps : ∀ k, 0 < caps k) {f : File}
    (hbytes : f.bytes.drop f.pos = Utf8.encode cs) (hfuel : cs.length < fuel) :
    ∃ ds es, cs = ds ++ es ∧ readAll fuel caps f = some (Utf16.encode ds) ∧ (es = [] ↔ Served caps cs) := by
  induction fuel generalizing caps cs f with
  | zero => exact absurd hfuel (Nat.not_lt_zero _)
  | succ fuel ih =>
    obtain ⟨ds, es, hfilled, hread⟩ := readText_spec hbytes (hcaps 0)
    have hsplit := hfilled.split
    have hleft := hfilled.leftOver_eq
    simp only [readAll, hread]
    by_cases hnil : ds = []
    · subst hnil
      refine ⟨[], cs, rfl, if_pos Utf16.encode_nil, ?_⟩
      rcases cs with - | ⟨c, cs⟩
      · exact ⟨fun _ => served_nil caps, fun _ => rfl⟩
      · -- nothing was read of a text that is left
        refine ⟨nofun, fun hserved => ?_⟩
        rw [List.nil_append] at hsplit
        have hfits := hfilled.full c (by rw [← hsplit]; rfl)
        have hcap := hcaps 0
        have hone := ((served_iff _).1 hserved).1 c rfl
        simp only [Fits, Utf16.encode_nil, List.append_nil, List.length_nil, Nat.zero_add, Utf16.length_encodeChar]
          at hfits
        split at hfits
        · omega
        · exact absurd (by omega) (hone (by omega))
    · have hdrop : f.bytes.drop (f.pos + (Utf8.encode ds).length) = Utf8.encode es := by
        rw [← List.drop_drop, hbytes, hsplit, Utf8.encode_append, List.drop_left]
      have hlt : es.length < fuel := by
        have hpos := List.length_pos_iff.2 hnil
        rw [hsplit, List.length_append] at hfuel
        omega
      obtain ⟨ds₂, es₂, hsplit₂, hread₂, hserved₂⟩ := ih (fun k => hcaps (k + 1))
        (f := { f with pos := f.pos + (Utf8.encode ds).length }) hdrop hlt
      refine ⟨ds ++ ds₂, es₂, by rw [hsplit, hsplit₂, List.append_assoc], ?_, ?_⟩
      · rw [if_neg (mt Utf16.encode_eq_nil.1 hnil), hread₂, Option.map_some, Utf16.encode_append]
      · rw [hserved₂, served_iff cs, hleft]
        refine ⟨fun h => ⟨fun c hc hplane hone => ?_, h⟩, (·.2)⟩
        -- the first buffer holds the first character
        obtain ⟨d, ds, rfl⟩ := List.exists_cons_of_ne_nil hnil
        rw [hsplit, List.cons_append] at hc
        obtain rfl := Option.some.inj hc
        have hle := hfilled.le
        rw [List.nil_append, Utf16.encode_cons, List.length_append, Utf16.length_encodeChar, if_neg (by omega)] at hle
        omega

theorem renderUtf16Units_encode (cs : List Char) : renderUtf16Units (Utf16.encode cs) = cs := by
  rw [renderUtf16Units, Utf16.decode_encode, List.flatMap_map]
  exact List.flatMap_singleton' cs

theorem bytes_writeText (cs : List Char) : (writeText .new (Utf16.encode cs)).2.bytes = Utf8.encode cs := by
  unfold writeText
  split
  · next hnil =>
    rw [List.length_eq_zero_iff, Utf16.encode_eq_nil] at hnil
    rw [hnil]
    rfl
  · rw [renderUtf16Units_encode]
    simp [File.writeAll, File.new]

theorem length_le_length_encode (cs : List Char) : cs.length ≤ (Utf16.encode cs).length := by
  induction cs with
  | nil => exact Nat.le_refl 0
  | cons c cs ih =>
    have hpos := Utf16.length_encodeChar_pos c
    rw [Utf16.encode_cons, List.length_append, List.length_cons]
    omega

theorem readAll_writeText (caps : Nat → Nat) (hcaps : ∀ k, 0 < caps k) (cs : List Char) : ∃ ds es, cs = ds ++ es ∧
    readAll ((Utf16.encode cs).length + 1) caps ((writeText .new (Utf16.encode cs)).2.seek 0) =
      some (Utf16.encode ds) ∧ (es = [] ↔ Served caps cs) :=
  readAll_spec _ hcaps (by rw [File.seek, List.drop_zero, bytes_writeText])
    (Nat.lt_succ_of_le (length_le_length_encode cs))

/-- A text that was written is read back in full just when no buffer of one unit meets a character that takes
two; otherwise the reader stops there. -/
theorem round_trip (caps : Nat → Nat) (hcaps : ∀ k, 0 < caps k) (cs : List Char) :
    ∃ text, readAll ((Utf16.encode cs).length + 1) caps ((writeText .new (Utf16.encode cs)).2.seek 0) = some text ∧
      (text = Utf16.encode cs ↔ Served caps cs) := by
  obtain ⟨ds, es, rfl, hread, hserved⟩ := readAll_writeText caps hcaps cs
  refine ⟨Utf16.encode ds, hread, ?_⟩
  rw [← hserved, Utf16.encode_append, List.self_eq_append_right, Utf16.encode_eq_nil]

end buffers

theorem round_trip_pairs : ∃ text, readAll 4 (fun _ => 2) ((writeText .new (Utf16.encode ['a', '😀'])).2.seek 0) = some text ∧
    text = Utf16.encode ['a', '😀'] := by
  obtain ⟨text, hread, heq⟩ := round_trip (fun _ => 2) (fun _ => by decide) ['a', '😀']
  exact ⟨text, hread, heq.2 fun k c _ _ htwo => absurd htwo (by decide : (2 : Nat) ≠ 1)⟩

/-- With buffers of one unit nothing is read of a character that takes two. -/
theorem round_trip_differs :
    readAll 3 (fun _ => 1) ((writeText .new (Utf16.encode ['😀'])).2.seek 0) ≠ some (Utf16.encode ['😀']) := by
  obtain ⟨ds, es, hsplit, hread, hserved⟩ := readAll_writeText (fun _ => 1) (fun _ => by decide) ['😀']
  have hes : es ≠ [] := by
    rw [ne_eq, hserved]
    exact fun h => h 0 '😀' rfl (by decide) rfl
  intro h
  have heq := Option.some.inj (hread.symm.trans h)
  rw [hsplit, Utf16.encode_append, List.self_eq_append_right, Utf16.encode_eq_nil] at heq
  exact hes heq

end NewM2.TextFile
