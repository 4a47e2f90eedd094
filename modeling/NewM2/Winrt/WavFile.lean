import Mathlib
import NewM2.Lib.Chars
import NewM2.Lib.Rounding

/-!
# Reading WAV files (`library/winrtmod/WavFile.mod`)

`readWav` loads a file into a buffer, walks through the chunks and takes the samples out of the last data chunk.
A read of the buffer behind the bytes that are loaded, or after the buffer is released, is the fault `outside`,
and so is a second release: a run without a fault stays within what is loaded and releases the buffer once.
The numbers of type REAL are rational, and every operation on them rounds to 64 bits. -/

namespace NewM2.Winrt.WavFile

abbrev Byte := BitVec 8

def maxSamples : Nat := 882000

def maxWavBytes : Nat := 44 + maxSamples * 2

/-- An open file: its size, and what `ReadBytes` loads of it, which may be less. -/
structure Reading where
  size : Nat
  loaded : List Byte
  le : loaded.length ≤ size

/-- What the surroundings do: the file, if it can be opened, and whether there is memory for the buffer and for
the samples. `ALLOCATE` gives a block for no samples too. -/
structure Env where
  file : Option Reading
  grantsBuffer : Bool
  grantsSamples : Bool

/-- The bytes in the buffer, and how often the file was closed and the buffer allocated and released. -/
structure World where
  bytes : List Byte
  closed : Nat
  allocated : Nat
  released : Nat

/-- Audio.Sound; `duration` is the quotient of two numbers, and `none` is a sample that was never written. -/
structure Sound where
  sampleRate : Nat
  channels : Nat
  count : Nat
  duration : Nat × Nat
  samples : List (Option ℚ)

abbrev Proc (α : Type) := StateT World (Except Fault) α

def close : Proc Unit := fun w => .ok ((), { w with closed := w.closed + 1 })

def allocate : Proc Unit := fun w => .ok ((), { w with allocated := w.allocated + 1 })

/-- `ReadBytes` -/
def load (bytes : List Byte) : Proc Unit := fun w => .ok ((), { w with bytes := bytes })

def deallocate : Proc Unit := fun w =>
  if w.released < w.allocated then .ok ((), { w with released := w.released + 1 }) else .error .outside

/-- `b^[j]` -/
def peek (j : Nat) : Proc Byte := fun w =>
  if maxWavBytes ≤ j then .error .indexException
  else if w.released < w.allocated then
    match w.bytes[j]? with
    | some x => .ok (x, w)
    | none => .error .outside
  else .error .outside

def getU16 (off : Nat) : Proc Nat := do
  let b0 ← peek off
  let b1 ← peek (off + 1)
  return b0.toNat + b1.toNat * 256

def getU32 (off : Nat) : Proc Nat := do
  let b0 ← peek off
  let b1 ← peek (off + 1)
  let b2 ← peek (off + 2)
  let b3 ← peek (off + 3)
  return b0.toNat + b1.toNat * 256 + b2.toNat * 65536 + b3.toNat * 16777216

/-- `VAL(BYTE, ORD(c))` -/
def letter (c : Char) : Byte := BitVec.ofNat 8 c.toNat

/-- `fmtOff` with `haveFmt`, and `dataOff` and `dataLen` with `haveData`. -/
structure Chunks where
  fmt : Option Nat
  data : Option (Nat × Nat)
deriving DecidableEq

/-- What is kept of the chunk at `pos`. -/
def keep (pos chunkSize : Nat) (c : Chunks) : Proc Chunks := do
  let isFmt ← (do if (← peek pos) = letter 'f' then return (← peek (pos + 1)) = letter 'm' else return false : Proc Bool)
  if isFmt then return { c with fmt := some (pos + 8) }
  else do
    let isData ←
      (do if (← peek pos) = letter 'd' then return (← peek (pos + 1)) = letter 'a' else return false : Proc Bool)
    if isData then return { c with data := some (pos + 8, chunkSize) } else return c

/-- The loop over the chunks. -/
def walk (got pos : Nat) (c : Chunks) : Proc Chunks :=
  if pos + 8 ≤ got then do
    let chunkSize ← getU32 (pos + 4)
    let c ← keep pos chunkSize c
    walk got (pos + 8 + chunkSize + chunkSize % 2) c
  else return c
termination_by got - pos

/-- The result of an operation on REAL. -/
def real (x : ℚ) : ℚ := Rounding.toBinary64 x

/-- The sample at `pos`. -/
def sample (bits pos : Nat) : Proc ℚ :=
  if bits = 8 then do
    let b ← peek pos
    return real (real ((b.toNat : ℚ) - 128) / 128)
  else if bits = 16 then do
    let u ← getU16 pos
    let val : Int := u
    let val := if 32768 ≤ val then val - 65536 else val
    return real (val / 32768)
  else if bits = 24 then do
    let c0 ← peek pos
    let c1 ← peek (pos + 1)
    let c2 ← peek (pos + 2)
    let val : Int := c0.toNat + c1.toNat * 256 + c2.toNat * 65536
    let val := if 8388608 ≤ val then val - 16777216 else val
    return real (val / 8388608)
  else do
    let val ← getU32 pos
    return real (val / 2147483648)

/-- `s.samples^[i] := x` -/
def poke (samples : List (Option ℚ)) (i : Nat) (x : ℚ) : Proc (List (Option ℚ)) := fun w =>
  if maxSamples ≤ i then .error .indexException
  else if i < samples.length then .ok (samples.set i (some x), w)
  else .error .outside

/-- The loop over the samples. The words of `i` and `n-1` are compared as signed numbers, so that there is no sample
for `n = 0`. -/
def samplesLoop (bits dataOff n i : Nat) (samples : List (Option ℚ)) : Proc (List (Option ℚ)) :=
  if i < n then do
    let x ← sample bits (dataOff + i * (bits / 8))
    let samples ← poke samples i x
    samplesLoop bits dataOff n (i + 1) samples
  else return samples
termination_by n - i

/-- From the samples on; the buffer and the format are fine. -/
def decode (env : Env) (sr channels bits dataOff dataLen : Nat) (s : Sound) : Proc (Bool × Sound) := do
  let n := min (dataLen / (bits / 8)) maxSamples
  if env.grantsSamples = false then do
    deallocate
    return (false, s)
  else do
    let samples ← samplesLoop bits dataOff n 0 (List.replicate n none)
    deallocate
    return (true, ⟨sr, channels, n, (n / channels, sr), samples⟩)

/-- From the format on. -/
def readFmt (env : Env) (got fmtOff dataOff dataLen : Nat) (s : Sound) : Proc (Bool × Sound) := do
  let tag ← getU16 fmtOff
  let channels ← getU16 (fmtOff + 2)
  let sr ← getU32 (fmtOff + 4)
  let bits ← getU16 (fmtOff + 14)
  if tag ≠ 1 ∨ channels ≠ 1 ∧ channels ≠ 2 then do
    deallocate
    return (false, s)
  else if bits ≠ 8 ∧ bits ≠ 16 ∧ bits ≠ 24 ∧ bits ≠ 32 then do
    deallocate
    return (false, s)
  else decode env sr channels bits dataOff (if got < dataOff + dataLen then got - dataOff else dataLen) s

/-- From the loaded bytes on. -/
def readChunks (env : Env) (got : Nat) (s : Sound) : Proc (Bool × Sound) := do
  let isWave ← (do if (← peek 0) = letter 'R' then return (← peek 8) = letter 'W' else return false : Proc Bool)
  if isWave then do
    match ← walk got 12 ⟨none, none⟩ with
    | ⟨some fmtOff, some (dataOff, dataLen)⟩ => readFmt env got fmtOff dataOff dataLen s
    | _ => do
      deallocate
      return (false, s)
  else do
    deallocate
    return (false, s)

/-- The result, and `s`. -/
def readWav (env : Env) (s : Sound) : Proc (Bool × Sound) :=
  match env.file with
  | none => return (false, s)
  | some f =>
    if f.size < 44 ∨ maxWavBytes < f.size then do
      close
      return (false, s)
    else if env.grantsBuffer = false then do
      close
      return (false, s)
    else do
      allocate
      load f.loaded
      close
      let got := f.loaded.length
      if got < 44 then do
        deallocate
        return (false, s)
      else readChunks env got s

/-! ## The chunks of a file -/

def byteAt (bs : List Byte) (j : Nat) : Byte := bs.getD j 0

def u16At (bs : List Byte) (off : Nat) : Nat := (byteAt bs off).toNat + (byteAt bs (off + 1)).toNat * 256

def u32At (bs : List Byte) (off : Nat) : Nat :=
  (byteAt bs off).toNat + (byteAt bs (off + 1)).toNat * 256 + (byteAt bs (off + 2)).toNat * 65536 +
    (byteAt bs (off + 3)).toNat * 16777216

def isWave (bs : List Byte) : Bool := byteAt bs 0 = letter 'R' ∧ byteAt bs 8 = letter 'W'

def isFmt (bs : List Byte) (pos : Nat) : Bool := byteAt bs pos = letter 'f' ∧ byteAt bs (pos + 1) = letter 'm'

def isData (bs : List Byte) (pos : Nat) : Bool := byteAt bs pos = letter 'd' ∧ byteAt bs (pos + 1) = letter 'a'

/-- Where the headers of the chunks are, from a position on. -/
def headers (bs : List Byte) (pos : Nat) : List Nat :=
  if pos + 8 ≤ bs.length then
    pos :: headers bs (pos + 8 + u32At bs (pos + 4) + u32At bs (pos + 4) % 2)
  else []
termination_by bs.length - pos

/-- The header of the last format chunk. -/
def lastFmt (bs : List Byte) : Option Nat := ((headers bs 12).filter (isFmt bs)).getLast?

def hasData (bs : List Byte) : Prop := ∃ p ∈ headers bs 12, isData bs p

/-- The file is loaded and goes by for a WAV file with a data chunk. -/
def Reaches (env : Env) (f : Reading) : Prop :=
  env.file = some f ∧ 44 ≤ f.size ∧ f.size ≤ maxWavBytes ∧ env.grantsBuffer = true ∧ 44 ≤ f.loaded.length ∧
    isWave f.loaded = true ∧ hasData f.loaded

/-- The 16 bytes of the last format chunk are loaded. -/
def FmtLoaded (env : Env) : Prop := ∀ f, Reaches env f → ∀ p ∈ lastFmt f.loaded, p + 24 ≤ f.loaded.length

/-- Before the call. -/
def World.start : World := ⟨[], 0, 0, 0⟩

/-- The file is closed and the buffer released, once if it was allocated; the samples are all written, or the sound
is as it was. -/
structure Done (env : Env) (s : Sound) (r : (Bool × Sound) × World) : Prop where
  closed : r.2.closed = if env.file.isSome then 1 else 0
  once : r.2.allocated ≤ 1
  released : r.2.released = r.2.allocated
  filled : r.1.1 = true → r.1.2.samples.length = r.1.2.count ∧ none ∉ r.1.2.samples ∧ r.1.2.count ≤ maxSamples
  kept : r.1.1 = false → r.1.2 = s

/-- While the buffer is there. -/
structure Live (w : World) : Prop where
  closed : w.closed = 1
  allocated : w.allocated = 1
  released : w.released = 0
  small : w.bytes.length ≤ maxWavBytes

/-! ## Reads -/

section reads
variable {w : World} {j off pos got bits : Nat} {bs : List Byte} {c : Chunks} {allowed : Fault → Prop}

theorem peek_reads (hw : Live w) (hj : j < w.bytes.length) :
    Reads allowed (peek j) w (· = byteAt w.bytes j) := by
  have hsmall := hw.small
  have hlive : w.released < w.allocated := by
    rw [hw.released, hw.allocated]
    exact Nat.one_pos
  rw [Reads, peek, if_neg (by omega), if_pos hlive, List.getElem?_eq_getElem hj]
  refine Runs.ok ⟨?_, rfl⟩
  rw [byteAt, List.getD_eq_getElem _ _ hj]

theorem getU16_reads (hw : Live w) (h : off + 2 ≤ w.bytes.length) :
    Reads allowed (getU16 off) w (· = u16At w.bytes off) := by
  refine (peek_reads hw (by omega)).bind fun b0 h0 => (peek_reads hw (by omega)).bind fun b1 h1 => Runs.ok ⟨?_, rfl⟩
  rw [h0, h1]
  rfl

theorem getU32_reads (hw : Live w) (h : off + 4 ≤ w.bytes.length) :
    Reads allowed (getU32 off) w (· = u32At w.bytes off) := by
  refine (peek_reads hw (by omega)).bind fun b0 h0 => (peek_reads hw (by omega)).bind fun b1 h1 =>
    (peek_reads hw (by omega)).bind fun b2 h2 => (peek_reads hw (by omega)).bind fun b3 h3 => Runs.ok ⟨?_, rfl⟩
  rw [h0, h1, h2, h3]
  rfl

/-- Two letters are looked at, the second one only if the first one is right. -/
theorem letters_reads (hw : Live w) {i : Nat} (hi : i < w.bytes.length) (hj : j < w.bytes.length) (x y : Char) :
    Reads allowed (do if (← peek i) = letter x then return (← peek j) = letter y else return false : Proc Bool) w
      (· = decide (byteAt w.bytes i = letter x ∧ byteAt w.bytes j = letter y)) := by
  refine (peek_reads hw hi).bind fun b hb => ?_
  rw [hb]
  by_cases hx : byteAt w.bytes i = letter x
  · rw [if_pos hx]
    refine (peek_reads hw hj).bind fun b' hb' => Runs.ok ⟨?_, rfl⟩
    rw [hb']
    simp [hx]
  · rw [if_neg hx]
    exact Runs.ok ⟨by simp [hx], rfl⟩

/-- What is kept of a header. -/
def keepOf (bs : List Byte) (c : Chunks) (pos : Nat) : Chunks :=
  if isFmt bs pos then { c with fmt := some (pos + 8) }
  else if isData bs pos then { c with data := some (pos + 8, u32At bs (pos + 4)) }
  else c

theorem keep_reads (hw : Live w) (h : pos + 8 ≤ w.bytes.length) (c : Chunks) :
    Reads allowed (keep pos (u32At w.bytes (pos + 4)) c) w (· = keepOf w.bytes c pos) := by
  refine (letters_reads hw (by omega) (by omega) 'f' 'm').bind fun b hb => ?_
  rw [hb, ← isFmt, keepOf]
  by_cases hfmt : isFmt w.bytes pos = true
  · rw [if_pos hfmt, if_pos hfmt]
    exact Runs.ok ⟨rfl, rfl⟩
  · rw [if_neg hfmt, if_neg hfmt]
    refine (letters_reads hw (by omega) (by omega) 'd' 'a').bind fun b hb => ?_
    rw [hb, ← isData]
    split_ifs with hdata
    · exact Runs.ok ⟨rfl, rfl⟩
    · exact Runs.ok ⟨rfl, rfl⟩

/-- The walk goes through the headers. -/
theorem walk_reads (hw : Live w) (pos : Nat) (c : Chunks) :
    Reads allowed (walk w.bytes.length pos c) w (· = (headers w.bytes pos).foldl (keepOf w.bytes) c) := by
  rw [walk, headers]
  split_ifs with hmore
  · refine (getU32_reads hw (by omega)).bind fun chunkSize hsize => ?_
    rw [hsize]
    refine (keep_reads hw hmore c).bind fun c' hc' => ?_
    rw [hc', List.foldl_cons]
    exact walk_reads hw _ _
  · exact Runs.ok ⟨rfl, rfl⟩
termination_by w.bytes.length - pos

theorem headers_le (bs : List Byte) (pos : Nat) : ∀ p ∈ headers bs pos, p + 8 ≤ bs.length := by
  intro p hp
  rw [headers] at hp
  split_ifs at hp with hmore
  · rcases List.mem_cons.1 hp with rfl | hp
    · exact hmore
    · exact headers_le bs _ p hp
  · exact absurd hp List.not_mem_nil
termination_by bs.length - pos

/-- What is kept in the end. -/
def found (bs : List Byte) : Chunks := (headers bs 12).foldl (keepOf bs) ⟨none, none⟩

theorem foldl_keepOf (bs : List Byte) (ps : List Nat) :
    (ps.foldl (keepOf bs) ⟨none, none⟩).fmt = (ps.filter (isFmt bs)).getLast?.map (· + 8) ∧
      (ps.foldl (keepOf bs) ⟨none, none⟩).data =
        (ps.filter (isData bs)).getLast?.map fun p => (p + 8, u32At bs (p + 4)) := by
  induction ps using List.reverseRecOn with
  | nil => exact ⟨rfl, rfl⟩
  | append_singleton ps p ih =>
    obtain ⟨ihfmt, ihdata⟩ := ih
    rw [List.foldl_append, List.foldl_cons, List.foldl_nil, List.filter_append, List.filter_append, keepOf,
      List.filter_singleton, List.filter_singleton]
    by_cases hfmt : isFmt bs p = true
    · have hdata : isData bs p = false := by
        rw [isFmt, decide_eq_true_eq] at hfmt
        rw [isData, decide_eq_false_iff_not, hfmt.1]
        exact fun h => absurd h.1 (by decide)
      rw [if_pos hfmt, hfmt, hdata]
      exact ⟨by simp, by simpa using ihdata⟩
    · rw [if_neg hfmt, Bool.not_eq_true] at *
      rw [hfmt]
      by_cases hdata : isData bs p = true
      · rw [if_pos hdata, hdata]
        exact ⟨by simpa using ihfmt, by simp⟩
      · rw [if_neg hdata]
        rw [Bool.not_eq_true] at hdata
        rw [hdata]
        exact ⟨by simpa using ihfmt, by simpa using ihdata⟩

theorem found_fmt (bs : List Byte) : (found bs).fmt = (lastFmt bs).map (· + 8) := (foldl_keepOf bs _).1

theorem found_data_isSome (bs : List Byte) : (found bs).data.isSome = true ↔ hasData bs := by
  rw [found, (foldl_keepOf bs _).2, Option.isSome_map, List.getLast?_isSome, Ne, List.filter_eq_nil_iff, hasData]
  simp

theorem found_data_le {bs : List Byte} {off len : Nat} (h : (found bs).data = some (off, len)) :
    off ≤ bs.length := by
  rw [found, (foldl_keepOf bs _).2, Option.map_eq_some_iff] at h
  obtain ⟨p, hp, hpair⟩ := h
  have hmem := (List.mem_filter.1 (List.mem_of_getLast? hp)).1
  have hle := headers_le bs 12 p hmem
  rw [Prod.mk.injEq] at hpair
  omega

/-- A sample within the loaded bytes. -/
theorem sample_reads (hw : Live w) (hbits : bits = 8 ∨ bits = 16 ∨ bits = 24 ∨ bits = 32)
    (h : pos + bits / 8 ≤ w.bytes.length) : Reads allowed (sample bits pos) w fun _ => True := by
  rw [sample]
  rcases hbits with rfl | rfl | rfl | rfl
  · rw [if_pos rfl]
    exact (peek_reads hw (by omega)).bind fun _ _ => Runs.ok ⟨trivial, rfl⟩
  · rw [if_neg (by decide), if_pos rfl]
    exact (getU16_reads hw (by omega)).bind fun _ _ => Runs.ok ⟨trivial, rfl⟩
  · rw [if_neg (by decide), if_neg (by decide), if_pos rfl]
    exact (peek_reads hw (by omega)).bind fun _ _ => (peek_reads hw (by omega)).bind fun _ _ =>
      (peek_reads hw (by omega)).bind fun _ _ => Runs.ok ⟨trivial, rfl⟩
  · rw [if_neg (by decide), if_neg (by decide), if_neg (by decide)]
    exact (getU32_reads hw (by omega)).bind fun _ _ => Runs.ok ⟨trivial, rfl⟩

/-- The samples before `i` are written. -/
def Written (n i : Nat) (samples : List (Option ℚ)) : Prop := samples.length = n ∧ ∀ j, j < i → samples[j]? ≠ some none

theorem samplesLoop_reads {dataOff n : Nat} (hw : Live w) (hbits : bits = 8 ∨ bits = 16 ∨ bits = 24 ∨ bits = 32)
    (hn : n ≤ maxSamples) (hfit : dataOff + n * (bits / 8) ≤ w.bytes.length) (i : Nat) {samples : List (Option ℚ)}
    (h : Written n i samples) : Reads allowed (samplesLoop bits dataOff n i samples) w (Written n n) := by
  rw [samplesLoop]
  split_ifs with hi
  · have hmul : (i + 1) * (bits / 8) ≤ n * (bits / 8) := Nat.mul_le_mul_right _ hi
    rw [Nat.add_mul, Nat.one_mul] at hmul
    refine (sample_reads hw hbits (by omega)).bind fun x _ => ?_
    obtain ⟨hlen, hwritten⟩ := h
    refine Runs.bindS (Q := fun q => Written n (i + 1) q.1 ∧ q.2 = w) ?_ ?_
    · rw [poke, if_neg (by omega), if_pos (by omega)]
      refine Runs.ok ⟨⟨by rw [List.length_set, hlen], fun j hj => ?_⟩, rfl⟩
      rcases Nat.lt_or_eq_of_le (Nat.le_of_lt_succ hj) with hj | rfl
      · rw [List.getElem?_set_ne (by omega)]
        exact hwritten j hj
      · rw [List.getElem?_set_self (by omega)]
        simp
    · rintro samples' w' ⟨h', hw'⟩
      rw [show w' = w from hw']
      exact samplesLoop_reads hw hbits hn hfit (i + 1) h'
  · refine Runs.ok ⟨⟨h.1, fun j hj => h.2 j (by omega)⟩, rfl⟩
termination_by n - i

end reads

/-! ## The call -/

section call
variable {env : Env} {s : Sound} {w : World} {off : Nat} {allowed : Fault → Prop}

/-- What a way out of the call leaves behind, of the buffer and of the sound. -/
def Ends (s : Sound) (r : (Bool × Sound) × World) : Prop :=
  r.2.closed = 1 ∧ r.2.allocated = 1 ∧ r.2.released = 1 ∧
    (r.1.1 = true → r.1.2.samples.length = r.1.2.count ∧ none ∉ r.1.2.samples ∧ r.1.2.count ≤ maxSamples) ∧
    (r.1.1 = false → r.1.2 = s)

theorem deallocate_ends (hw : Live w) {r : Bool × Sound}
    (hfilled : r.1 = true → r.2.samples.length = r.2.count ∧ none ∉ r.2.samples ∧ r.2.count ≤ maxSamples)
    (hkept : r.1 = false → r.2 = s) :
    Runs allowed ((do
      deallocate
      return r : Proc (Bool × Sound)) w) (Ends s) := by
  have hlive : w.released < w.allocated := by
    rw [hw.released, hw.allocated]
    exact Nat.one_pos
  refine Runs.bindS (Q := fun q => q.2 = { w with released := 1 }) ?_ ?_
  · rw [deallocate, if_pos hlive]
    refine Runs.ok ?_
    rw [hw.released]
  · rintro _ w' hw'
    rw [show w' = _ from hw']
    exact Runs.ok ⟨hw.closed, hw.allocated, rfl, hfilled, hkept⟩

/-- A way out without a result. -/
theorem fails_ends (hw : Live w) :
    Runs allowed ((do
      deallocate
      return (false, s) : Proc (Bool × Sound)) w) fun r => Ends s r ∧ r.1.1 = false := by
  have hlive : w.released < w.allocated := by
    rw [hw.released, hw.allocated]
    exact Nat.one_pos
  refine Runs.bindS (Q := fun q => q.2 = { w with released := 1 }) ?_ ?_
  · rw [deallocate, if_pos hlive]
    refine Runs.ok ?_
    rw [hw.released]
  · rintro _ w' hw'
    rw [show w' = _ from hw']
    exact Runs.ok ⟨⟨hw.closed, hw.allocated, rfl, fun h => absurd h Bool.false_ne_true, fun _ => rfl⟩, rfl⟩

theorem decode_runs (hw : Live w) {sr channels bits dataOff dataLen : Nat}
    (hbits : bits = 8 ∨ bits = 16 ∨ bits = 24 ∨ bits = 32) (hfit : dataOff + dataLen ≤ w.bytes.length) :
    Runs allowed (decode env sr channels bits dataOff dataLen s w) (Ends s) := by
  rw [decode]
  generalize hn : min (dataLen / (bits / 8)) maxSamples = n
  have hn' : n ≤ maxSamples := hn ▸ Nat.min_le_right _ _
  have hmul : n * (bits / 8) ≤ dataLen :=
    (Nat.mul_le_mul_right _ (hn ▸ Nat.min_le_left _ _)).trans (Nat.div_mul_le_self _ _)
  split_ifs with hnone
  · exact (fails_ends hw).mono fun _ h => h.1
  · have hstart : Written n 0 (List.replicate n none) :=
      ⟨List.length_replicate, fun j hj => absurd hj (Nat.not_lt_zero j)⟩
    refine (samplesLoop_reads hw hbits hn' (by omega) 0 hstart).bind fun samples hwritten => ?_
    refine deallocate_ends hw (fun _ => ⟨hwritten.1, fun hmem => ?_, hn'⟩) fun h => absurd h Bool.true_eq_false.mp
    obtain ⟨j, hj, hnone⟩ := List.getElem_of_mem hmem
    exact hwritten.2 j (hwritten.1 ▸ hj) (by rw [List.getElem?_eq_getElem hj, hnone])

theorem readFmt_runs (hw : Live w) {dataOff dataLen : Nat} (hfmt : off + 16 ≤ w.bytes.length)
    (hdata : dataOff ≤ w.bytes.length) :
    Runs allowed (readFmt env w.bytes.length off dataOff dataLen s w) (Ends s) := by
  rw [readFmt]
  refine (getU16_reads hw (by omega)).bind fun tag _ => (getU16_reads hw (by omega)).bind fun channels _ =>
    (getU32_reads hw (by omega)).bind fun sr _ => (getU16_reads hw (by omega)).bind fun bits _ => ?_
  split_ifs with hformat hbits hlen
  · exact (fails_ends hw).mono fun _ h => h.1
  · exact (fails_ends hw).mono fun _ h => h.1
  · exact decode_runs hw (by omega) (by omega)
  · exact decode_runs hw (by omega) (by omega)

/-- Beyond the loaded bytes there is no read. -/
theorem peek_fails {j : Nat} (hj : w.bytes.length ≤ j) :
    Runs (fun _ => True) (peek j w) fun _ => False := by
  rw [peek]
  split_ifs
  · trivial
  · rw [List.getElem?_eq_none hj]
    trivial
  · trivial

theorem peek_any (j : Nat) (w : World) : Reads (fun _ => True) (peek j) w fun _ => True := by
  rw [Reads, peek]
  split_ifs
  · trivial
  · cases w.bytes[j]? with
    | none => trivial
    | some b => exact ⟨trivial, rfl⟩
  · trivial

theorem getU16_any (off : Nat) (w : World) : Reads (fun _ => True) (getU16 off) w fun _ => True :=
  (peek_any _ w).bind fun _ _ => (peek_any _ w).bind fun _ _ => Runs.ok ⟨trivial, rfl⟩

theorem getU32_any (off : Nat) (w : World) : Reads (fun _ => True) (getU32 off) w fun _ => True :=
  (peek_any _ w).bind fun _ _ => (peek_any _ w).bind fun _ _ => (peek_any _ w).bind fun _ _ =>
    (peek_any _ w).bind fun _ _ => Runs.ok ⟨trivial, rfl⟩

theorem readFmt_fails {dataOff dataLen : Nat} (hfmt : w.bytes.length < off + 16) :
    Runs (fun _ => True) (readFmt env w.bytes.length off dataOff dataLen s w) fun _ => False := by
  rw [readFmt]
  refine (getU16_any _ w).bind fun _ _ => (getU16_any _ w).bind fun _ _ => (getU32_any _ w).bind fun _ _ =>
    Runs.bindS (Q := fun _ => False) ?_ fun _ _ hfalse => hfalse.elim
  exact (peek_any _ w).bind fun _ _ => Runs.bindS (peek_fails (by omega)) fun _ _ hfalse => hfalse.elim

/-- The magic letters and the walk. -/
theorem readChunks_eq (hw : Live w) (h : 44 ≤ w.bytes.length) {Q : (Bool × Sound) × World → Prop}
    (hplain : isWave w.bytes = false ∨ ¬ hasData w.bytes ∨ lastFmt w.bytes = none → ∀ r, Ends s r → r.1.1 = false → Q r)
    (hfmt : isWave w.bytes = true → hasData w.bytes → ∀ p ∈ lastFmt w.bytes, ∀ dataOff dataLen,
      (found w.bytes).data = some (dataOff, dataLen) → Runs allowed (readFmt env w.bytes.length (p + 8) dataOff dataLen s w) Q) :
    Runs allowed (readChunks env w.bytes.length s w) Q := by
  rw [readChunks]
  refine (letters_reads hw (by omega) (by omega) 'R' 'W').bind fun b hb => ?_
  rw [hb, ← isWave]
  by_cases hwave : isWave w.bytes = true
  · rw [if_pos hwave]
    refine (walk_reads hw 12 ⟨none, none⟩).bind fun c hc => ?_
    rw [show c = found w.bytes from hc]
    have hfound := found_fmt w.bytes
    have hsome := found_data_isSome w.bytes
    cases hdata : (found w.bytes).data with
    | none =>
      have hnone : ¬ hasData w.bytes := by
        rw [← hsome, hdata]
        exact Bool.false_ne_true
      have hfails : Runs allowed ((do
          deallocate
          return (false, s) : Proc (Bool × Sound)) w) Q := (fails_ends hw).mono fun r hr => hplain (.inr (.inl hnone)) r hr.1 hr.2
      cases hfmt : (found w.bytes).fmt with
      | none =>
        rw [show found w.bytes = ⟨none, none⟩ from by rw [← hdata, ← hfmt]]
        exact hfails
      | some off =>
        rw [show found w.bytes = ⟨some off, none⟩ from by rw [← hdata, ← hfmt]]
        exact hfails
    | some d =>
      obtain ⟨dataOff, dataLen⟩ := d
      have hhas : hasData w.bytes := by
        rw [← hsome, hdata]
        rfl
      cases hlast : lastFmt w.bytes with
      | none =>
        rw [hlast, Option.map_none] at hfound
        rw [show found w.bytes = ⟨none, some (dataOff, dataLen)⟩ from by rw [← hdata, ← hfound]]
        exact (fails_ends hw).mono fun r hr => hplain (.inr (.inr hlast)) r hr.1 hr.2
      | some p =>
        rw [hlast, Option.map_some] at hfound
        rw [show found w.bytes = ⟨some (p + 8), some (dataOff, dataLen)⟩ from by rw [← hdata, ← hfound]]
        exact hfmt hwave hhas p (by rw [hlast]; rfl) dataOff dataLen hdata
  · rw [if_neg hwave]
    exact (fails_ends hw).mono fun r hr => hplain (.inl (Bool.not_eq_true _ ▸ hwave)) r hr.1 hr.2

theorem done_of_ends {f : Reading} (hfile : env.file = some f) {r : (Bool × Sound) × World} (h : Ends s r) :
    Done env s r := by
  obtain ⟨hclosed, hallocated, hreleased, hfilled, hkept⟩ := h
  refine ⟨?_, hallocated.le, hreleased.trans hallocated.symm, hfilled, hkept⟩
  rw [hclosed, hfile]
  rfl

/-- The run up to the loaded bytes. -/
theorem readWav_eq {Q : (Bool × Sound) × World → Prop}
    (hplain : ∀ r, Done env s r → r.1.1 = false → Q r)
    (hload : ∀ f, env.file = some f → 44 ≤ f.size → f.size ≤ maxWavBytes → env.grantsBuffer = true →
      44 ≤ f.loaded.length → Runs allowed (readChunks env f.loaded.length s ⟨f.loaded, 1, 1, 0⟩) Q) :
    Runs allowed (readWav env s World.start) Q := by
  rw [readWav]
  cases hfile : env.file with
  | none =>
    exact Runs.ok (hplain _
      ⟨by rw [hfile]; rfl, Nat.zero_le _, rfl, fun h => absurd h Bool.false_ne_true, fun _ => rfl⟩ rfl)
  | some f =>
    dsimp only
    have hclosed : Done env s ((false, s), ⟨[], 1, 0, 0⟩) :=
      ⟨by rw [hfile]; rfl, Nat.zero_le _, rfl, fun h => absurd h Bool.false_ne_true, fun _ => rfl⟩
    split_ifs with hsize hgrant hshort
    · exact Runs.ok (hplain _ hclosed rfl)
    · exact Runs.ok (hplain _ hclosed rfl)
    · have hle := f.le
      have hlive : Live ⟨f.loaded, 1, 1, 0⟩ := ⟨rfl, rfl, rfl, by dsimp only; omega⟩
      exact (fails_ends hlive).mono fun r hr => hplain r (done_of_ends hfile hr.1) hr.2
    · exact hload f hfile (by omega) (by omega) (by simpa using hgrant) (by omega)

/-- A call ends well just if the last format chunk of the file is loaded. -/
theorem readWav_safe_iff (env : Env) (s : Sound) :
    (∃ r, readWav env s World.start = .ok r ∧ Done env s r) ↔ FmtLoaded env := by
  have hlive : ∀ f : Reading, f.size ≤ maxWavBytes → Live ⟨f.loaded, 1, 1, 0⟩ := fun f hf =>
    ⟨rfl, rfl, rfl, f.le.trans hf⟩
  constructor
  · rintro ⟨r, hrun, -⟩ f ⟨hfile, hsize, hsize', hgrant, hloaded, hwave, hdata⟩ p hp
    by_contra hshort
    have hplain : isWave f.loaded = false ∨ ¬ hasData f.loaded ∨ lastFmt f.loaded = none → ∀ r, Ends s r → r.1.1 = false → False := by
      rintro (h | h | h)
      · exact absurd (hwave.symm.trans h) Bool.true_eq_false.mp
      · exact absurd hdata h
      · rw [h] at hp
        exact absurd hp (Option.not_mem_none p)
    have hfails : Runs (fun _ => True) (readWav env s World.start) fun _ => False := by
      rw [readWav, hfile]
      dsimp only
      rw [if_neg (by omega), if_neg (by rw [hgrant]; exact Bool.true_eq_false.mp)]
      change Runs _ ((if f.loaded.length < 44 then _ else readChunks env f.loaded.length s : Proc (Bool × Sound)) ⟨f.loaded, 1, 1, 0⟩) _
      rw [if_neg (by omega)]
      refine readChunks_eq (hlive f hsize') hloaded hplain fun _ _ q hq dataOff dataLen _ => ?_
      obtain rfl : q = p := Option.mem_unique hq hp
      exact readFmt_fails (by dsimp only; omega)
    rw [hrun] at hfails
    exact hfails
  · intro h
    refine Runs.succeeds (readWav_eq (fun _ hr _ => hr) fun f hfile hsize hsize' hgrant hloaded => ?_)
    refine readChunks_eq (hlive f hsize') hloaded (fun _ r hr _ => done_of_ends hfile hr) ?_
    intro hwave hdata p hp dataOff dataLen hfound
    have hroom := h f ⟨hfile, hsize, hsize', hgrant, hloaded, hwave, hdata⟩ p hp
    exact (readFmt_runs (hlive f hsize') (by dsimp only; omega) (found_data_le hfound)).mono fun r hr => done_of_ends hfile hr

/-- A file of 44 bytes: a data chunk, and the header of a format chunk at the very end. -/
def shortFile : Reading :=
  ⟨44, ("R   ....W   da  ".toList.map letter) ++ [16, 0, 0, 0] ++ List.replicate 16 0 ++ "fm  ....".toList.map letter,
    by decide⟩

/-- The format is read behind the end of the file. -/
theorem readWav_behind :
    readWav ⟨some shortFile, true, true⟩ ⟨0, 0, 0, (0, 0), []⟩ World.start = .error .outside := by
  have hrun : Except.map (fun _ => ())
      (readWav ⟨some shortFile, true, true⟩ ⟨0, 0, 0, (0, 0), []⟩ World.start) = .error .outside := by decide +kernel
  generalize readWav ⟨some shortFile, true, true⟩ ⟨0, 0, 0, (0, 0), []⟩ World.start = run at hrun ⊢
  cases run with
  | error e => simpa [Except.map] using hrun
  | ok r => cases hrun

end call

end NewM2.Winrt.WavFile
