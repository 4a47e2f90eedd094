import Mathlib
import NewM2.Lib.Chars
import NewM2.Lib.Vlq

/-!
# Writing MIDI files (`library/winrtmod/SmfFile.mod`)

`writeSmf` writes the events of a tune into a buffer as a file of one track, each behind the ticks since the one
before it, and fills in the length of the track afterwards. `parse` reads such a file. -/

namespace NewM2.Winrt.SmfFile

abbrev Byte := BitVec 8

def maxSmf : Nat := 262144

def maxEvents : Nat := 16384

structure MidiEvent where
  timeMs : Nat
  status : Nat
  chan : Nat
  d1 : Nat
  d2 : Nat
deriving DecidableEq

/-- Abc.Tune; the events are sorted by time. -/
structure Tune where
  ev : List MidiEvent
  bpm : Nat
  few : ev.length ≤ maxEvents
  sorted : ev.Pairwise fun e e' => e.timeMs ≤ e'.timeMs

/-- `gBuf`, and `pos`. -/
@[ext] structure World where
  gBuf : List Byte
  pos : Nat
  size : gBuf.length = maxSmf

abbrev Proc (α : Type) := StateT World (Except Fault) α

def putB (b : Nat) : Proc Unit := fun w =>
  if w.pos < maxSmf then
    .ok ((), ⟨w.gBuf.set w.pos (BitVec.ofNat 8 (b &&& 0xFF)), w.pos + 1, by rw [List.length_set, w.size]⟩)
  else .error .indexException

def putU16BE (v : Nat) : Proc Unit := do
  putB (v / 256)
  putB v

def putU32BE (v : Nat) : Proc Unit := do
  putB (v / 16777216)
  putB (v / 65536)
  putB (v / 256)
  putB v

/-- `gBuf[i] := VAL(BYTE, b)` -/
def pokeB (i b : Nat) : Proc Unit := fun w =>
  if i < maxSmf then .ok ((), ⟨w.gBuf.set i (BitVec.ofNat 8 b), w.pos, by rw [List.length_set, w.size]⟩)
  else .error .indexException

def putU32BEat (i v : Nat) : Proc Unit := do
  pokeB i ((v / 16777216) &&& 0xFF)
  pokeB (i + 1) ((v / 65536) &&& 0xFF)
  pokeB (i + 2) ((v / 256) &&& 0xFF)
  pokeB (i + 3) (v &&& 0xFF)

def put4 (c0 c1 c2 c3 : Char) : Proc Unit := do
  putB c0.toNat
  putB c1.toNat
  putB c2.toNat
  putB c3.toNat

/-- The first loop of `PutVLQ`, with `i` and `buf` at its end. -/
def fillVLQ (i v : Nat) (buf : List Nat) : Except Fault (Nat × List Nat) :=
  if 0 < v then
    if i + 1 < 4 then fillVLQ (i + 1) (v / 128) (buf.set (i + 1) ((v &&& 0x7F) ||| 0x80))
    else .error .indexException
  else .ok (i, buf)
termination_by v

/-- The second loop of `PutVLQ`: `buf[i - 1]` down to `buf[0]`. -/
def drainVLQ : Nat → List Nat → Proc Unit
  | 0, _ => return ()
  | i + 1, buf =>
    match buf[i]? with
    | some b => do
      putB b
      drainVLQ i buf
    | none => throw .indexException

/-- The places of `buf` that are not written yet are 0. -/
def putVLQ (value : Nat) : Proc Unit := fun w => do
  let (i, buf) ← fillVLQ 0 (value / 128) [value &&& 0x7F, 0, 0, 0]
  drainVLQ (i + 1) buf w

/-- NM2Math.truncToCard, of a number that is not negative -/
def truncToCard (x : ℚ) : Nat := ⌊x⌋₊

def tickOf (ms bpm : Nat) : Nat := truncToCard ((ms : ℚ) * bpm / 125 + 1 / 2)

/-- An event behind its delta. -/
def putEvent (delta : Nat) (e : MidiEvent) : Proc Unit := do
  putVLQ delta
  putB (e.status ||| (e.chan &&& 0xF))
  putB e.d1
  if e.status ≠ 0xC0 then putB e.d2 else return ()

/-- The loop over the events. -/
def putEvents (bpm : Nat) : Nat → List MidiEvent → Proc Unit
  | _, [] => return ()
  | lastTick, e :: es => do
    let tk := tickOf e.timeMs bpm
    putEvent (tk - lastTick) e
    putEvents bpm tk es

/-- The bytes in the buffer. -/
def World.file (w : World) : List Byte := w.gBuf.take w.pos

/-- `pos := n` -/
def setPos (n : Nat) : Proc Unit := fun w => .ok ((), { w with pos := n })

def getPos : Proc Nat := fun w => .ok (w.pos, w)

/-- MThd: format 0, one track, 480 ticks a quarter; and the name of MTrk. -/
def putHead : Proc Unit := do
  put4 'M' 'T' 'h' 'd'
  putU32BE 6
  putU16BE 0
  putU16BE 1
  putU16BE 480
  put4 'M' 'T' 'r' 'k'

/-- The tempo, the events and the end of the track. -/
def putTrack (bpm : Nat) (ev : List MidiEvent) : Proc Unit := do
  let mpq := 60000000 / bpm
  putVLQ 0
  putB 0xFF
  putB 0x51
  putB 3
  putB (mpq / 65536)
  putB (mpq / 256)
  putB mpq
  putEvents bpm 0 ev
  putVLQ 0
  putB 0xFF
  putB 0x2F
  putB 0

/-- The bytes of the file. -/
def build (bpm : Nat) (ev : List MidiEvent) : Proc Unit := do
  setPos 0
  putHead
  let lenAt ← getPos
  putU32BE 0
  let trkStart ← getPos
  putTrack bpm ev
  let pos ← getPos
  putU32BEat lenAt (pos - trkStart)

/-- The tempo, 120 if there is none. -/
def Tune.tempo (t : Tune) : Nat := if t.bpm = 0 then 120 else t.bpm

/-- `create` is `none` if the file cannot be created, else how many of some bytes `WriteBytes` writes to it. -/
def writeSmf (create : Option (List Byte → Nat)) (t : Tune) : Proc Bool :=
  if t.ev.length = 0 then return false
  else do
    build t.tempo t.ev
    match create with
    | none => return false
    | some writeBytes => fun w => .ok (decide (writeBytes w.file = w.pos), w)

def letters (s : String) : List Nat := s.toList.map Char.toNat

/-! ## MIDI files -/

/-- A channel message; one with a single data byte has `d2 = 0`. -/
structure Message where
  status : Nat
  chan : Nat
  d1 : Nat
  d2 : Nat
deriving DecidableEq

inductive Item
  | tempo (mpq : Nat)
  | message (m : Message)
deriving DecidableEq

/-- What a file of one track says: the ticks of a quarter, and the items of the track, each at its tick. -/
structure Smf where
  division : Nat
  items : List (Nat × Item)
deriving DecidableEq

/-- A number in bytes, the highest one first. -/
def bigEndian (bs : List Nat) : Nat := bs.foldl (fun v b => v * 256 + b) 0

/-- A meta event, behind its status; `none` in the result is the end of the track. -/
def readMeta (kind : Nat) (rest : List Nat) : Option (Option Item × List Nat) :=
  if kind = 0x51 then
    match rest with
    | n :: a :: b :: c :: rest => if n = 3 then some (some (.tempo (bigEndian [a, b, c])), rest) else none
    | _ => none
  else if kind = 0x2F then
    match rest with
    | n :: rest => if n = 0 then some (none, rest) else none
    | _ => none
  else none

/-- A channel message, behind its first data byte. -/
def readChannel (s d1 : Nat) (rest : List Nat) : Option (Option Item × List Nat) :=
  if s / 16 = 0xC ∨ s / 16 = 0xD then some (some (.message ⟨s / 16 * 16, s % 16, d1, 0⟩), rest)
  else
    match rest with
    | d2 :: rest => if d2 < 128 then some (some (.message ⟨s / 16 * 16, s % 16, d1, d2⟩), rest) else none
    | [] => none

def readItem : List Nat → Option (Option Item × List Nat)
  | s :: d1 :: rest =>
    if s = 0xFF then readMeta d1 rest
    else if 0x80 ≤ s ∧ s < 0xF0 ∧ d1 < 128 then readChannel s d1 rest
    else none
  | _ => none

/-- The items of a track behind `tick`, at most as many as the first number says. The track ends with its
end-of-track. -/
def readItems : Nat → Nat → List Nat → Option (List (Nat × Item))
  | 0, _, _ => none
  | n + 1, tick, bs =>
    match Vlq.readFrom 4 0 bs with
    | none => none
    | some (delta, bs) =>
      match readItem bs with
      | none => none
      | some (none, bs) => if bs = [] then some [] else none
      | some (some it, bs) => (readItems n (tick + delta) bs).map ((tick + delta, it) :: ·)

/-- The chunk with a name at the start, and what is behind it. -/
def readChunk (name : List Nat) (bs : List Nat) : Option (List Nat × List Nat) :=
  if bs.take 4 = name then
    let len := bigEndian ((bs.drop 4).take 4)
    if 8 + len ≤ bs.length then some ((bs.drop 8).take len, (bs.drop 8).drop len) else none
  else none

/-- A file with a header of format 0 and one track, and nothing else. -/
def parse (file : List Byte) : Option Smf :=
  match readChunk (letters "MThd") (file.map BitVec.toNat) with
  | none => none
  | some (head, bs) =>
    match readChunk (letters "MTrk") bs with
    | none => none
    | some (track, bs) =>
      if head.length = 6 ∧ bigEndian (head.take 2) = 0 ∧ bigEndian ((head.drop 2).take 2) = 1 ∧ bs = [] then
        (readItems track.length 0 track).map fun items => ⟨bigEndian (head.drop 4), items⟩
      else none

/-! ## Writing -/

section writing
variable {u v : List Nat} {w : World} {i b n : Nat} {allowed : Fault → Prop}

/-- The bytes that are written are `u`. -/
structure Wrote (u : List Nat) (w : World) : Prop where
  pos : w.pos = u.length
  file : w.file.map BitVec.toNat = u

/-- A program that writes `v` behind what there is, and faults only if `bad` or if there is no room. -/
def Writes (bad : Prop) (x : Proc Unit) (v : List Nat) : Prop :=
  ∀ u w, Wrote u w →
    Runs (fun e => (bad ∨ maxSmf < u.length + v.length) ∧ e = .indexException) (x w) fun r =>
      ¬ bad ∧ Wrote (u ++ v) r.2

theorem Writes.nil : Writes False (pure ()) [] := fun u w h =>
  Runs.ok ⟨not_false, by rwa [List.append_nil]⟩

/-- One program after the other. -/
theorem Writes.bind {bad bad' : Prop} {x y : Proc Unit} (hx : Writes bad x v) {v' : List Nat} (hy : Writes bad' y v') :
    Writes (bad ∨ bad') (do
      x
      y) (v ++ v') := by
  intro u w h
  have hlen : (v ++ v').length = v.length + v'.length := List.length_append
  have hlen' : (u ++ v).length = u.length + v.length := List.length_append
  refine Runs.bindS ((hx u w h).imp ?_ fun _ hr => hr) ?_
  · rintro e ⟨hbad | hfull, he⟩
    · exact ⟨.inl (.inl hbad), he⟩
    · exact ⟨.inr (by omega), he⟩
  · rintro _ w' ⟨hgood, hw'⟩
    refine (hy (u ++ v) w' hw').imp ?_ ?_
    · rintro e ⟨hbad | hfull, he⟩
      · exact ⟨.inl (.inr hbad), he⟩
      · exact ⟨.inr (by omega), he⟩
    · rintro r ⟨hgood', hr⟩
      exact ⟨not_or.2 ⟨hgood, hgood'⟩, by rwa [← List.append_assoc]⟩

theorem Writes.congr {bad bad' : Prop} {x : Proc Unit} (h : Writes bad x v) (hbad : bad ↔ bad') :
    Writes bad' x v := by
  rwa [← propext hbad]

/-- The same without a fault. -/
theorem Writes.and {x y : Proc Unit} (hx : Writes False x v) {v' : List Nat} (hy : Writes False y v') :
    Writes False (do
      x
      y) (v ++ v') := (hx.bind hy).congr (or_self_iff)

theorem and_0xFF (b : Nat) : (b &&& 0xFF) = b % 256 := Nat.and_two_pow_sub_one_eq_mod b 8

theorem take_set_concat {α : Type} {l : List α} {i : Nat} (h : i < l.length) (x : α) :
    (l.set i x).take (i + 1) = l.take i ++ [x] := by
  have hi : i < (l.set i x).length := by rwa [List.length_set]
  rw [List.take_succ_eq_append_getElem hi, List.getElem_set_self, List.take_set_of_le le_rfl]

theorem putB_writes (b : Nat) : Writes False (putB b) [b % 256] := by
  intro u w h
  have hpos := h.pos
  have hsize := w.size
  rw [putB, List.length_singleton]
  split_ifs with hroom
  · refine Runs.ok ⟨not_false, ?_, ?_⟩
    · rw [List.length_append, List.length_singleton, ← hpos]
    · rw [World.file, take_set_concat (by omega), List.map_append, ← World.file, h.file, and_0xFF]
      simp
  · exact Runs.error ⟨.inr (by omega), rfl⟩

theorem put4_writes (c0 c1 c2 c3 : Char) :
    Writes False (put4 c0 c1 c2 c3) [c0.toNat % 256, c1.toNat % 256, c2.toNat % 256, c3.toNat % 256] :=
  (putB_writes _).and ((putB_writes _).and ((putB_writes _).and (putB_writes _)))

theorem putU16BE_writes (v : Nat) : Writes False (putU16BE v) [v / 256 % 256, v % 256] :=
  (putB_writes _).and (putB_writes _)

/-- The four bytes of a number. -/
def bytes4 (v : Nat) : List Nat := [v / 16777216 % 256, v / 65536 % 256, v / 256 % 256, v % 256]

theorem putU32BE_writes (v : Nat) : Writes False (putU32BE v) (bytes4 v) :=
  (putB_writes _).and ((putB_writes _).and ((putB_writes _).and (putB_writes _)))

theorem groups_high (v : Nat) : ((v &&& 0x7F) ||| 0x80) = v % 128 + 128 := by
  have hmod : (v &&& 0x7F) = v % 128 := Nat.and_two_pow_sub_one_eq_mod v 7
  have hor := Nat.two_pow_add_eq_or_of_lt (b := v % 128) (i := 7) (by omega) 1
  rw [show 2 ^ 7 * 1 = 0x80 from rfl] at hor
  rw [hmod, Nat.or_comm, ← hor, Nat.add_comm]

theorem fillVLQ_runs (i v : Nat) (buf : List Nat) (hi : i < 4) (hlen : buf.length = 4) :
    Runs (fun e => 4 ≤ i + (Vlq.leading v).length ∧ e = .indexException) (fillVLQ i v buf) fun r =>
      i + (Vlq.leading v).length < 4 ∧ r.1 < 4 ∧ r.2.length = 4 ∧
        (r.2.take (r.1 + 1)).reverse = Vlq.leading v ++ (buf.take (i + 1)).reverse := by
  rw [fillVLQ]
  split_ifs with hv hroom
  · have hstep : (Vlq.leading v).length = (Vlq.leading (v / 128)).length + 1 := by
      rw [Vlq.leading_pos hv, List.length_append, List.length_singleton]
    refine (fillVLQ_runs (i + 1) (v / 128) _ hroom (by rw [List.length_set, hlen])).imp ?_ ?_
    · rintro e ⟨hlong, he⟩
      exact ⟨by omega, he⟩
    · rintro r ⟨hshort, hr, hrlen, htake⟩
      refine ⟨by omega, hr, hrlen, ?_⟩
      rw [htake, take_set_concat (by omega), groups_high, Vlq.leading_pos hv, List.reverse_append,
        List.append_assoc]
      rfl
  · refine Runs.error ⟨?_, rfl⟩
    have hpos : 0 < (Vlq.leading v).length := by
      rw [Vlq.leading_pos hv, List.length_append, List.length_singleton]
      omega
    omega
  · obtain rfl : v = 0 := by omega
    rw [Vlq.leading_zero]
    exact Runs.ok ⟨hi, hi, hlen, rfl⟩
termination_by v

theorem drainVLQ_writes (i : Nat) (buf : List Nat) (hi : i ≤ buf.length) :
    Writes False (drainVLQ i buf) ((buf.take i).reverse.map (· % 256)) := by
  induction i with
  | zero => exact Writes.nil
  | succ i ih =>
    have hget : buf[i]? = some buf[i] := List.getElem?_eq_getElem hi
    rw [drainVLQ, hget, List.take_succ_eq_append_getElem hi, List.reverse_append]
    exact (putB_writes _).and (ih (by omega))

/-- Four groups are written at most. -/
theorem putVLQ_writes (value : Nat) : Writes (2 ^ 28 ≤ value) (putVLQ value) (Vlq.groups value) := by
  intro u w h
  have hlen := Vlq.length_groups_le_iff value 3
  have hgroups : (Vlq.groups value).length = (Vlq.leading (value / 128)).length + 1 := by
    rw [Vlq.groups, List.length_append, List.length_singleton]
  have hmod : (value &&& 0x7F) = value % 128 := Nat.and_two_pow_sub_one_eq_mod value 7
  have hfill := fillVLQ_runs 0 (value / 128) [value &&& 0x7F, 0, 0, 0] (by decide) rfl
  refine (hfill.imp (fun e he => ⟨.inl (by omega), he.2⟩) fun _ hr => hr).bind ?_
  rintro ⟨i, buf⟩ ⟨hshort, hi, hbuf, htake⟩
  replace hi : i < 4 := hi
  replace hbuf : buf.length = 4 := hbuf
  have hvalue : (buf.take (i + 1)).reverse.map (· % 256) = Vlq.groups value := by
    rw [htake, hmod]
    change (Vlq.groups value).map (· % 256) = _
    exact (List.map_congr_left fun b hb => Nat.mod_eq_of_lt (Vlq.lt_of_mem_groups hb)).trans (List.map_id' _)
  have hdrain := drainVLQ_writes (i + 1) buf (by omega) u w h
  rw [hvalue] at hdrain
  refine hdrain.imp (fun e he => ⟨.inr (he.1.resolve_left not_false), he.2⟩) fun r hr => ⟨by omega, hr.2⟩

/-- An event without its delta. -/
def eventBytes (e : MidiEvent) : List Nat :=
  [(e.status ||| (e.chan &&& 0xF)) % 256, e.d1 % 256] ++ if e.status ≠ 0xC0 then [e.d2 % 256] else []

theorem putEvent_writes (delta : Nat) (e : MidiEvent) :
    Writes (2 ^ 28 ≤ delta) (putEvent delta e) (Vlq.groups delta ++ eventBytes e) := by
  have hlast : Writes False (if e.status ≠ 0xC0 then putB e.d2 else return ())
      (if e.status ≠ 0xC0 then [e.d2 % 256] else []) := by
    by_cases hst : e.status ≠ 0xC0
    · rw [if_pos hst, if_pos hst]
      exact putB_writes _
    · rw [if_neg hst, if_neg hst]
      exact Writes.nil
  exact ((putVLQ_writes delta).bind ((putB_writes _).and ((putB_writes _).and hlast))).congr (or_iff_left not_false)

/-- The ticks between the events. -/
def deltas (bpm : Nat) : Nat → List MidiEvent → List Nat
  | _, [] => []
  | lastTick, e :: es => (tickOf e.timeMs bpm - lastTick) :: deltas bpm (tickOf e.timeMs bpm) es

/-- There is a gap of 2²⁸ ticks or more. -/
def Gap (bpm lastTick : Nat) (es : List MidiEvent) : Prop := ∃ d ∈ deltas bpm lastTick es, 2 ^ 28 ≤ d

theorem gap_cons (bpm lastTick : Nat) (e : MidiEvent) (es : List MidiEvent) :
    Gap bpm lastTick (e :: es) ↔ 2 ^ 28 ≤ tickOf e.timeMs bpm - lastTick ∨ Gap bpm (tickOf e.timeMs bpm) es := by
  rw [Gap, deltas, List.exists_mem_cons_iff, ← Gap]

def eventsBytes (bpm : Nat) : Nat → List MidiEvent → List Nat
  | _, [] => []
  | lastTick, e :: es =>
    Vlq.groups (tickOf e.timeMs bpm - lastTick) ++ eventBytes e ++ eventsBytes bpm (tickOf e.timeMs bpm) es

theorem putEvents_writes (bpm lastTick : Nat) (es : List MidiEvent) :
    Writes (Gap bpm lastTick es) (putEvents bpm lastTick es) (eventsBytes bpm lastTick es) := by
  induction es generalizing lastTick with
  | nil => exact Writes.nil.congr ⟨False.elim, fun h => absurd h (by simp [Gap, deltas])⟩
  | cons e es ih => exact ((putEvent_writes _ e).bind (ih _)).congr (gap_cons bpm lastTick e es).symm

theorem length_eventsBytes_le {bpm lastTick : Nat} {es : List MidiEvent} (h : ¬ Gap bpm lastTick es) :
    (eventsBytes bpm lastTick es).length ≤ 7 * es.length := by
  induction es generalizing lastTick with
  | nil => exact Nat.zero_le _
  | cons e es ih =>
    rw [gap_cons, not_or, not_le] at h
    have hrest := ih h.2
    have hdelta := (Vlq.length_groups_le_iff _ 3).2 h.1
    have hevent : (eventBytes e).length ≤ 3 := by
      rw [eventBytes]
      split_ifs
      · exact le_rfl
      · exact Nat.le_succ 2
    rw [eventsBytes, List.length_append, List.length_append, List.length_cons]
    omega

def headBytes : List Nat := letters "MThd" ++ (bytes4 6 ++ ([0, 0] ++ ([0, 1] ++ ([1, 224] ++ letters "MTrk"))))

theorem putHead_writes : Writes False putHead headBytes :=
  (put4_writes 'M' 'T' 'h' 'd').and ((putU32BE_writes 6).and ((putU16BE_writes 0).and ((putU16BE_writes 1).and
    ((putU16BE_writes 480).and (put4_writes 'M' 'T' 'r' 'k')))))

def tempoBytes (mpq : Nat) : List Nat := [0, 0xFF, 0x51, 3, mpq / 65536 % 256, mpq / 256 % 256, mpq % 256]

def endBytes : List Nat := [0, 0xFF, 0x2F, 0]

def trackBytes (bpm : Nat) (ev : List MidiEvent) : List Nat :=
  tempoBytes (60000000 / bpm) ++ (eventsBytes bpm 0 ev ++ endBytes)

theorem groups_zero : Vlq.groups 0 = [0] := by
  rw [Vlq.groups, Nat.zero_div, Vlq.leading_zero]
  rfl

theorem putTrack_writes (bpm : Nat) (ev : List MidiEvent) :
    Writes (Gap bpm 0 ev) (putTrack bpm ev) (trackBytes bpm ev) := by
  have hzero : Writes False (putVLQ 0) [0] :=
    groups_zero ▸ (putVLQ_writes 0).congr ⟨fun h => absurd h (by decide), False.elim⟩
  have hend : Writes False (do
      putVLQ 0
      putB 0xFF
      putB 0x2F
      putB 0) endBytes := hzero.and ((putB_writes _).and ((putB_writes _).and (putB_writes _)))
  have htail := ((putEvents_writes bpm 0 ev).bind hend).congr (or_iff_left not_false)
  have hfalse : (False ∨ (False ∨ (False ∨ (False ∨ (False ∨ (False ∨ (False ∨ Gap bpm 0 ev)))))))
      ↔ Gap bpm 0 ev := by simp
  exact (hzero.bind ((putB_writes _).bind ((putB_writes _).bind ((putB_writes _).bind ((putB_writes _).bind
    ((putB_writes _).bind ((putB_writes _).bind htail))))))).congr hfalse

/-- A byte that is there is written over. -/
theorem pokeB_runs {i : Nat} (h : Wrote u w) (hi : i < u.length) (b : Nat) :
    Runs allowed (pokeB i b w) fun r => Wrote (u.set i (b % 256)) r.2 := by
  have hpos := h.pos
  have hlen : (w.file.map BitVec.toNat).length = u.length := by rw [h.file]
  rw [List.length_map, World.file, List.length_take, w.size] at hlen
  rw [pokeB, if_pos (by omega)]
  refine Runs.ok ⟨?_, ?_⟩
  · rw [List.length_set, ← hpos]
  · change ((w.gBuf.set i (BitVec.ofNat 8 b)).take w.pos).map BitVec.toNat = _
    rw [List.take_set, List.map_set, ← World.file, h.file, BitVec.toNat_ofNat]

theorem putU32BEat_runs {p r : List Nat} {a b c d : Nat} (h : Wrote (p ++ ([a, b, c, d] ++ r)) w) (v : Nat) :
    Runs allowed (putU32BEat p.length v w) fun q => Wrote (p ++ (bytes4 v ++ r)) q.2 := by
  have hlen : (p ++ ([a, b, c, d] ++ r)).length = p.length + (r.length + 4) := by simp
  refine Runs.bindS (pokeB_runs h (by omega) _) fun _ w1 h1 => ?_
  refine Runs.bindS (pokeB_runs h1 (by rw [List.length_set]; omega) _) fun _ w2 h2 => ?_
  refine Runs.bindS (pokeB_runs h2 (by rw [List.length_set, List.length_set]; omega) _) fun _ w3 h3 => ?_
  refine (pokeB_runs h3 (by rw [List.length_set, List.length_set, List.length_set]; omega) _).mono fun q hq => ?_
  rw [List.set_append_right _ _ le_rfl, List.set_append_right _ _ (by omega), List.set_append_right _ _ (by omega),
    List.set_append_right _ _ (by omega)] at hq
  simpa [bytes4, and_0xFF] using hq

/-- The file of some events. -/
def fileBytes (bpm : Nat) (ev : List MidiEvent) : List Nat :=
  headBytes ++ (bytes4 (trackBytes bpm ev).length ++ trackBytes bpm ev)

theorem build_runs (bpm : Nat) (ev : List MidiEvent) (w : World) :
    Runs (fun e => (Gap bpm 0 ev ∨ maxSmf < (fileBytes bpm ev).length) ∧ e = .indexException) (build bpm ev w)
      fun r => ¬ Gap bpm 0 ev ∧ Wrote (fileBytes bpm ev) r.2 := by
  have hlen : (fileBytes bpm ev).length = headBytes.length + (4 + (trackBytes bpm ev).length) := by
    rw [fileBytes, List.length_append, List.length_append]
    rfl
  have hstart : Wrote [] { w with pos := 0 } := ⟨rfl, by rw [World.file, List.take_zero, List.map_nil]⟩
  refine Runs.bindS (Q := fun r => r.2 = { w with pos := 0 }) (Runs.ok rfl) ?_
  rintro _ w0 hw0
  rw [show w0 = _ from hw0]
  refine Runs.bindS ((putHead_writes [] _ hstart).imp ?_ fun _ hr => hr) ?_
  · rintro e ⟨hfalse | hfull, he⟩
    · exact hfalse.elim
    · rw [List.length_nil] at hfull
      exact ⟨.inr (by omega), he⟩
  rintro _ w1 ⟨-, h1⟩
  rw [List.nil_append] at h1
  change Runs _ ((do
    putU32BE 0
    let trkStart ← getPos
    putTrack bpm ev
    let pos ← getPos
    putU32BEat w1.pos (pos - trkStart) : Proc Unit) w1) _
  have hlen2 : (headBytes ++ bytes4 0).length = headBytes.length + 4 := List.length_append
  refine Runs.bindS ((putU32BE_writes 0 _ _ h1).imp ?_ fun _ hr => hr) ?_
  · rintro e ⟨hfalse | hfull, he⟩
    · exact hfalse.elim
    · rw [show (bytes4 0).length = 4 from rfl] at hfull
      exact ⟨.inr (by omega), he⟩
  rintro _ w2 ⟨-, h2⟩
  change Runs _ ((do
    putTrack bpm ev
    let pos ← getPos
    putU32BEat w1.pos (pos - w2.pos) : Proc Unit) w2) _
  refine Runs.bindS ((putTrack_writes bpm ev _ _ h2).imp ?_ fun _ hr => hr) ?_
  · rintro e ⟨hgap | hfull, he⟩
    · exact ⟨.inl hgap, he⟩
    · exact ⟨.inr (by omega), he⟩
  rintro _ w3 ⟨hgap, h3⟩
  change Runs _ (putU32BEat w1.pos (w3.pos - w2.pos) w3) _
  have hcount : w3.pos - w2.pos = (trackBytes bpm ev).length := by
    rw [h3.pos, h2.pos, List.length_append, Nat.add_sub_cancel_left]
  rw [List.append_assoc] at h3
  rw [hcount, h1.pos]
  exact (putU32BEat_runs h3 _).mono fun q hq => ⟨hgap, hq⟩

end writing

/-! ## Reading back -/

section parsing
variable {e : MidiEvent} {rest : List Nat} {n bpm lastTick mpq : Nat} {es : List MidiEvent}

/-- The message of an event; a program change has no second data byte. -/
def MidiEvent.message (e : MidiEvent) : Message := ⟨e.status, e.chan, e.d1, if e.status = 0xC0 then 0 else e.d2⟩

/-- An event is a channel message that is a program change or has two data bytes. -/
structure Valid (e : MidiEvent) : Prop where
  status : e.status = 0xC0 ∨ e.status ∈ [0x80, 0x90, 0xA0, 0xB0, 0xE0] ∧ e.d2 < 128
  chan : e.chan < 16
  d1 : e.d1 < 128

theorem statusByte_eq {k : Nat} (hk : k < 16) (hst : e.status = 16 * k) (hchan : e.chan < 16) :
    (e.status ||| (e.chan &&& 0xF)) % 256 = 16 * k + e.chan := by
  have hand : (e.chan &&& 0xF) = e.chan := by
    rw [show (0xF : Nat) = 2 ^ 4 - 1 from rfl, Nat.and_two_pow_sub_one_eq_mod, Nat.mod_eq_of_lt hchan]
  have hor : 2 ^ 4 * k + e.chan = 2 ^ 4 * k ||| e.chan := Nat.two_pow_add_eq_or_of_lt hchan k
  rw [show 2 ^ 4 = 16 from rfl] at hor
  rw [hand, hst, ← hor]
  omega

theorem readChannel_one {s d1 : Nat} (h : s / 16 = 0xC ∨ s / 16 = 0xD) (rest : List Nat) :
    readChannel s d1 rest = some (some (.message ⟨s / 16 * 16, s % 16, d1, 0⟩), rest) := by
  unfold readChannel
  rw [if_pos h]

theorem readChannel_two {s d1 : Nat} (h : ¬ (s / 16 = 0xC ∨ s / 16 = 0xD)) (d2 : Nat) (rest : List Nat) :
    readChannel s d1 (d2 :: rest) =
      if d2 < 128 then some (some (.message ⟨s / 16 * 16, s % 16, d1, d2⟩), rest) else none := by
  unfold readChannel
  rw [if_neg h]

theorem readMeta_ne (kind : Nat) (rest bs : List Nat) (m : Message) :
    readMeta kind rest ≠ some (some (.message m), bs) := by
  unfold readMeta
  split_ifs
  · split <;> simp
  · split <;> simp
  · simp

theorem eventBytes_eq (e : MidiEvent) (rest : List Nat) :
    eventBytes e ++ rest = (e.status ||| (e.chan &&& 0xF)) % 256 :: e.d1 % 256 ::
      ((if e.status ≠ 0xC0 then [e.d2 % 256] else []) ++ rest) := rfl

theorem readItem_eventBytes (h : Valid e) (rest : List Nat) :
    readItem (eventBytes e ++ rest) = some (some (.message e.message), rest) := by
  have hchan := h.chan
  have hd1 := h.d1
  rcases h.status with hst | ⟨hst, hd2⟩
  · have hbyte := statusByte_eq (k := 12) (by decide) hst hchan
    rw [eventBytes_eq, if_neg (not_not.2 hst), hbyte, readItem, if_neg (by omega), if_pos (by omega),
      readChannel_one (by omega), MidiEvent.message, if_pos hst, hst, List.nil_append]
    congr 5
    · omega
    · omega
    · omega
  · obtain ⟨k, hk, hk8, hkC, hkD, hst'⟩ : ∃ k, k < 15 ∧ 8 ≤ k ∧ k ≠ 12 ∧ k ≠ 13 ∧ e.status = 16 * k := by
      simp only [List.mem_cons, List.not_mem_nil, or_false] at hst
      exact ⟨e.status / 16, by omega, by omega, by omega, by omega, by omega⟩
    have hbyte := statusByte_eq (by omega) hst' hchan
    have hC : e.status ≠ 0xC0 := by omega
    rw [eventBytes_eq, if_pos hC, hbyte, readItem, if_neg (by omega), if_pos (by omega), List.singleton_append,
      readChannel_two (by omega), if_pos (by omega), MidiEvent.message, if_neg hC, hst']
    congr 5
    · omega
    · omega
    · omega
    · omega

/-- Only a channel message is read as one; a message with one data byte that is no program change leaves a byte. -/
theorem valid_of_readItem {bs : List Nat}
    (h : readItem (eventBytes e ++ rest) = some (some (.message e.message), bs)) :
    Valid e ∧ bs = rest ∨ bs = 0 :: rest := by
  rw [eventBytes_eq] at h
  generalize (e.status ||| (e.chan &&& 0xF)) % 256 = s at h
  rw [readItem] at h
  by_cases hmeta : s = 0xFF
  · rw [if_pos hmeta] at h
    exact absurd h (readMeta_ne _ _ _ _)
  rw [if_neg hmeta] at h
  by_cases hchannel : 0x80 ≤ s ∧ s < 0xF0 ∧ e.d1 % 256 < 128
  · rw [if_pos hchannel] at h
    by_cases hone : s / 16 = 0xC ∨ s / 16 = 0xD
    · rw [readChannel_one hone] at h
      simp only [Option.some.injEq, Prod.mk.injEq, Item.message.injEq, MidiEvent.message, Message.mk.injEq] at h
      obtain ⟨⟨hst, hchan, hd1, hd2⟩, hbs⟩ := h
      by_cases hC : e.status = 0xC0
      · rw [if_neg (not_not.2 hC), List.nil_append] at hbs
        exact .inl ⟨⟨.inl hC, by omega, by omega⟩, hbs.symm⟩
      · rw [if_neg hC] at hd2
        rw [if_pos hC, ← hd2] at hbs
        exact .inr hbs.symm
    · have hC : e.status ≠ 0xC0 := by
        intro hC
        rw [hC, if_neg (not_not.2 rfl), List.nil_append] at h
        cases rest with
        | nil =>
          unfold readChannel at h
          rw [if_neg hone] at h
          cases h
        | cons d2 rest =>
          rw [readChannel_two hone] at h
          split_ifs at h
          simp only [Option.some.injEq, Prod.mk.injEq, Item.message.injEq, MidiEvent.message, Message.mk.injEq] at h
          omega
      rw [if_pos hC, List.singleton_append, readChannel_two hone] at h
      split_ifs at h with hd2
      simp only [Option.some.injEq, Prod.mk.injEq, Item.message.injEq, MidiEvent.message, Message.mk.injEq,
        if_neg hC] at h
      obtain ⟨⟨hst, hchan, hd1, hd2'⟩, hbs⟩ := h
      refine .inl ⟨⟨.inr ⟨?_, by omega⟩, by omega, by omega⟩, hbs.symm⟩
      simp only [List.mem_cons, List.not_mem_nil, or_false]
      omega
  · rw [if_neg hchannel] at h
    cases h

/-- The events as items of a track. -/
def itemsOf (bpm : Nat) (es : List MidiEvent) : List (Nat × Item) :=
  es.map fun e => (tickOf e.timeMs bpm, .message e.message)

theorem readItems_step {delta tick : Nat} {bs : List Nat} (hdelta : delta < 2 ^ 28) :
    readItems (n + 1) tick (Vlq.groups delta ++ bs) =
      match readItem bs with
      | none => none
      | some (none, bs) => if bs = [] then some [] else none
      | some (some it, bs) => (readItems n (tick + delta) bs).map ((tick + delta, it) :: ·) := by
  rw [readItems, Vlq.readFrom_groups bs hdelta]

/-- The end of the track. -/
theorem readItems_end (n tick : Nat) : readItems (n + 1) tick endBytes = some [] := by
  have h := @readItems_step n 0 tick [0xFF, 0x2F, 0] (by decide)
  rw [groups_zero] at h
  exact h

/-- No item starts with a byte 0. -/
theorem readItem_zero (bs : List Nat) : readItem (0 :: bs) = none := by
  cases bs with
  | nil => rfl
  | cons b bs => rfl

/-- With a byte 0 in between, the rest of a track is not read back. -/
theorem readItems_zero_ne (hgap : ¬ Gap bpm lastTick es) (n : Nat) :
    readItems n lastTick (0 :: (eventsBytes bpm lastTick es ++ endBytes)) ≠ some (itemsOf bpm es) := by
  intro h
  cases n with
  | zero => cases h
  | succ n =>
    have hstep := @readItems_step n 0 lastTick (eventsBytes bpm lastTick es ++ endBytes) (by decide)
    rw [groups_zero, List.singleton_append, h] at hstep
    cases es with
    | nil =>
      rw [eventsBytes, List.nil_append, endBytes, readItem_zero] at hstep
      cases hstep
    | cons e es =>
      rw [gap_cons, not_or, not_le] at hgap
      by_cases hdelta : tickOf e.timeMs bpm - lastTick = 0
      · rw [eventsBytes, hdelta, groups_zero, List.append_assoc, List.append_assoc, List.singleton_append,
          readItem_zero] at hstep
        cases hstep
      · cases hread : readItem (eventsBytes bpm lastTick (e :: es) ++ endBytes) with
        | none =>
          rw [hread] at hstep
          cases hstep
        | some q =>
          obtain ⟨it, bs⟩ := q
          rw [hread] at hstep
          cases it with
          | none =>
            dsimp only at hstep
            split_ifs at hstep
            cases hstep
          | some it =>
            obtain ⟨tail, -, htail⟩ := Option.map_eq_some_iff.1 hstep.symm
            rw [itemsOf, List.map_cons, List.cons.injEq, Prod.mk.injEq] at htail
            omega

/-- The events of a track are read back just if they are valid. -/
theorem readItems_eventsBytes_iff (hn : es.length < n) (hgap : ¬ Gap bpm lastTick es)
    (hsorted : (lastTick :: es.map fun e => tickOf e.timeMs bpm).Pairwise (· ≤ ·)) :
    readItems n lastTick (eventsBytes bpm lastTick es ++ endBytes) = some (itemsOf bpm es) ↔
      ∀ e ∈ es, Valid e := by
  induction es generalizing n lastTick with
  | nil =>
    obtain ⟨m, rfl⟩ := Nat.exists_eq_add_of_lt hn
    rw [eventsBytes, List.nil_append, readItems_end]
    exact ⟨fun _ e he => absurd he List.not_mem_nil, fun _ => rfl⟩
  | cons e es ih =>
    rw [List.length_cons] at hn
    obtain ⟨m, rfl⟩ : ∃ m, n = m + 1 := ⟨n - 1, by omega⟩
    rw [gap_cons, not_or, not_le] at hgap
    rw [List.map_cons, List.pairwise_cons] at hsorted
    have hle : lastTick ≤ tickOf e.timeMs bpm := hsorted.1 _ List.mem_cons_self
    have hih := ih (by omega : es.length < m) hgap.2 hsorted.2
    rw [eventsBytes, List.append_assoc, List.append_assoc, readItems_step hgap.1, Nat.add_sub_cancel' hle]
    rw [List.forall_mem_cons]
    constructor
    · intro h
      cases hread : readItem (eventBytes e ++ (eventsBytes bpm (tickOf e.timeMs bpm) es ++ endBytes)) with
      | none =>
        rw [hread] at h
        cases h
      | some q =>
        obtain ⟨it, bs⟩ := q
        rw [hread] at h
        cases it with
        | none =>
          dsimp only at h
          split_ifs at h
          cases h
        | some it =>
          obtain ⟨tail, hrest, htail⟩ := Option.map_eq_some_iff.1 h
          rw [itemsOf, List.map_cons, List.cons.injEq, Prod.mk.injEq] at htail
          obtain ⟨⟨-, rfl⟩, rfl⟩ := htail
          rcases valid_of_readItem hread with ⟨hvalid, rfl⟩ | rfl
          · exact ⟨hvalid, hih.1 hrest⟩
          · exact absurd hrest (readItems_zero_ne hgap.2 m)
    · rintro ⟨hvalid, hrest⟩
      rw [readItem_eventBytes hvalid]
      dsimp only
      rw [hih.2 hrest]
      rfl

theorem bigEndian_bytes4 {v : Nat} (h : v < 2 ^ 32) : bigEndian (bytes4 v) = v := by
  rw [bytes4, bigEndian]
  simp only [List.foldl_cons, List.foldl_nil]
  omega

theorem readChunk_append {name data : List Nat} (hname : name.length = 4) (hdata : data.length < 2 ^ 32)
    (rest : List Nat) :
    readChunk name (name ++ (bytes4 data.length ++ (data ++ rest))) = some (data, rest) := by
  have hdrop : (name ++ (bytes4 data.length ++ (data ++ rest))).drop 8 = data ++ rest := by
    rw [show 8 = name.length + 4 by omega, List.drop_length_add_append]
    rfl
  have hlen : ((name ++ (bytes4 data.length ++ (data ++ rest))).drop 4).take 4 = bytes4 data.length := by
    rw [← hname, List.drop_left, hname]
    rfl
  have htake : (name ++ (bytes4 data.length ++ (data ++ rest))).take 4 = name := by rw [← hname, List.take_left]
  have hroom : 8 + data.length ≤ (name ++ (bytes4 data.length ++ (data ++ rest))).length := by
    rw [List.length_append, List.length_append, List.length_append, hname, show (bytes4 data.length).length = 4 from rfl]
    omega
  rw [readChunk, if_pos htake, hlen, bigEndian_bytes4 hdata]
  dsimp only
  rw [if_pos hroom, hdrop, List.take_left, List.drop_left]

/-- Three bytes of the tempo are read. -/
theorem readItems_tempoBytes (n mpq : Nat) (rest : List Nat) :
    readItems (n + 1) 0 (tempoBytes mpq ++ rest) =
      (readItems n 0 rest).map ((0, .tempo (mpq % 2 ^ 24)) :: ·) := by
  have hstep := @readItems_step n 0 0 ([0xFF, 0x51, 3, mpq / 65536 % 256, mpq / 256 % 256, mpq % 256] ++ rest)
    (by decide)
  have htempo : bigEndian [mpq / 65536 % 256, mpq / 256 % 256, mpq % 256] = mpq % 2 ^ 24 := by
    rw [bigEndian]
    simp only [List.foldl_cons, List.foldl_nil]
    omega
  rw [groups_zero, ← List.append_assoc] at hstep
  rw [tempoBytes, ← htempo]
  exact hstep

theorem tempo_lt_iff {bpm : Nat} (hbpm : 0 < bpm) : 60000000 / bpm < 2 ^ 24 ↔ 4 ≤ bpm := by
  rw [Nat.div_lt_iff_lt_mul hbpm]
  omega

theorem le_length_eventsBytes (bpm lastTick : Nat) (es : List MidiEvent) :
    es.length ≤ (eventsBytes bpm lastTick es).length := by
  induction es generalizing lastTick with
  | nil => exact Nat.zero_le _
  | cons e es ih =>
    have hrest := ih (tickOf e.timeMs bpm)
    rw [eventsBytes, List.length_append, List.length_append, List.length_cons, eventBytes, List.length_append,
      List.length_cons]
    omega

theorem length_trackBytes (bpm : Nat) (ev : List MidiEvent) :
    (trackBytes bpm ev).length = (eventsBytes bpm 0 ev).length + 11 := by
  rw [trackBytes, List.length_append, List.length_append]
  change 7 + (_ + 4) = _
  omega

theorem length_fileBytes_le {bpm : Nat} {ev : List MidiEvent} (hgap : ¬ Gap bpm 0 ev)
    (hfew : ev.length ≤ maxEvents) : (fileBytes bpm ev).length ≤ maxSmf := by
  have hevents := length_eventsBytes_le hgap
  rw [fileBytes, List.length_append, List.length_append, length_trackBytes]
  change 18 + (4 + _) ≤ _
  rw [maxEvents] at hfew
  rw [maxSmf]
  omega

/-- What a file with the events says. -/
def contents (bpm : Nat) (ev : List MidiEvent) : Smf :=
  ⟨480, (0, .tempo (60000000 / bpm)) :: itemsOf bpm ev⟩

theorem parse_iff {bpm : Nat} {ev : List MidiEvent} {file : List Byte} (hbpm : 0 < bpm) (hfew : ev.length ≤ maxEvents)
    (hgap : ¬ Gap bpm 0 ev) (hsorted : (ev.map fun e => tickOf e.timeMs bpm).Pairwise (· ≤ ·))
    (hfile : file.map BitVec.toNat = fileBytes bpm ev) :
    parse file = some (contents bpm ev) ↔ 4 ≤ bpm ∧ ∀ e ∈ ev, Valid e := by
  have hevents := length_eventsBytes_le hgap
  have hfewer := le_length_eventsBytes bpm 0 ev
  have htrack := length_trackBytes bpm ev
  rw [maxEvents] at hfew
  have hhead : readChunk (letters "MThd") (fileBytes bpm ev) = some ([0, 0, 0, 1, 1, 224],
      letters "MTrk" ++ (bytes4 (trackBytes bpm ev).length ++ (trackBytes bpm ev ++ []))) := by
    rw [List.append_nil]
    exact @readChunk_append (letters "MThd") [0, 0, 0, 1, 1, 224] rfl (by decide)
      (letters "MTrk" ++ (bytes4 (trackBytes bpm ev).length ++ trackBytes bpm ev))
  have htrk : readChunk (letters "MTrk")
      (letters "MTrk" ++ (bytes4 (trackBytes bpm ev).length ++ (trackBytes bpm ev ++ []))) =
        some (trackBytes bpm ev, []) := readChunk_append rfl (by omega) []
  have hparse : parse file =
      (readItems (trackBytes bpm ev).length 0 (trackBytes bpm ev)).map fun items => ⟨480, items⟩ := by
    rw [parse, hfile, hhead]
    dsimp only
    rw [htrk]
    exact if_pos ⟨rfl, rfl, rfl, rfl⟩
  have hcount : (trackBytes bpm ev).length = (trackBytes bpm ev).length - 1 + 1 := by omega
  have hiff := readItems_eventsBytes_iff (n := (trackBytes bpm ev).length - 1) (by omega) hgap
    (List.pairwise_cons.2 ⟨fun _ _ => Nat.zero_le _, hsorted⟩)
  rw [hparse, hcount, trackBytes, readItems_tempoBytes, ← trackBytes, ← hiff, ← tempo_lt_iff hbpm, contents,
    Option.map_map, Option.map_eq_some_iff]
  constructor
  · rintro ⟨items, hitems, heq⟩
    simp only [Function.comp_apply, Smf.mk.injEq, List.cons.injEq, Prod.mk.injEq, Item.tempo.injEq] at heq
    obtain ⟨-, ⟨-, htempo⟩, rfl⟩ := heq
    exact ⟨htempo ▸ Nat.mod_lt _ (by decide), hitems⟩
  · rintro ⟨htempo, hitems⟩
    exact ⟨itemsOf bpm ev, hitems, by rw [Function.comp_apply, Nat.mod_eq_of_lt htempo]⟩

end parsing

/-! ## The whole call -/

section call
variable {t : Tune}

/-- The tune is written without a fault, and the file is read back as its events, each at the tick of its time. -/
def Faithful (t : Tune) : Prop :=
  ∀ create w, ∃ r w', writeSmf create t w = .ok (r, w') ∧
    (t.ev ≠ [] → parse w'.file = some (contents t.tempo t.ev) ∧
      (r = true ↔ ∃ writeBytes ∈ create, writeBytes w'.file = w'.file.length))

/-- The tempo has 24 bits, no gap between two events has more than 28, and the events are messages that are
written with the right number of data bytes. -/
def Fits (t : Tune) : Prop :=
  t.ev ≠ [] → 4 ≤ t.tempo ∧ (∀ d ∈ deltas t.tempo 0 t.ev, d < 2 ^ 28) ∧ ∀ e ∈ t.ev, Valid e

theorem Tune.tempo_pos (t : Tune) : 0 < t.tempo := by
  rw [tempo]
  split_ifs <;> omega

theorem tickOf_mono (bpm : Nat) {ms ms' : Nat} (h : ms ≤ ms') : tickOf ms bpm ≤ tickOf ms' bpm := by
  rw [tickOf, tickOf, truncToCard, truncToCard]
  gcongr

theorem Tune.ticks_sorted (t : Tune) : (t.ev.map fun e => tickOf e.timeMs t.tempo).Pairwise (· ≤ ·) :=
  List.pairwise_map.2 (t.sorted.imp fun h => tickOf_mono _ h)

theorem not_gap_iff (bpm lastTick : Nat) (es : List MidiEvent) :
    ¬ Gap bpm lastTick es ↔ ∀ d ∈ deltas bpm lastTick es, d < 2 ^ 28 := by
  simp only [Gap, not_exists, not_and, not_le]

theorem writeSmf_runs (create : Option (List Byte → Nat)) (t : Tune) (hev : t.ev ≠ []) (w : World) :
    Runs (fun e => (Gap t.tempo 0 t.ev ∨ maxSmf < (fileBytes t.tempo t.ev).length) ∧ e = .indexException)
      (writeSmf create t w) fun r => ¬ Gap t.tempo 0 t.ev ∧ Wrote (fileBytes t.tempo t.ev) r.2 ∧
        (r.1 = true ↔ ∃ writeBytes ∈ create, writeBytes r.2.file = r.2.file.length) := by
  unfold writeSmf
  rw [if_neg (fun h => hev (List.length_eq_zero_iff.1 h))]
  refine Runs.bindS (build_runs t.tempo t.ev w) ?_
  rintro _ w' ⟨hgap, hwrote⟩
  have hpos : w'.pos = w'.file.length := by rw [hwrote.pos, ← hwrote.file, List.length_map]
  cases create with
  | none => exact Runs.ok ⟨hgap, hwrote, fun h => absurd h Bool.false_ne_true, by simp⟩
  | some writeBytes => exact Runs.ok ⟨hgap, hwrote, by simp [hpos]⟩

/-- Before the first file. -/
def World.start : World := ⟨List.replicate maxSmf 0, 0, List.length_replicate⟩

/-- Just what fits is written faithfully. -/
theorem writeSmf_faithful_iff (t : Tune) : Faithful t ↔ Fits t := by
  constructor
  · intro h hev
    obtain ⟨r, w', hrun, hresult⟩ := h none World.start
    have hruns := writeSmf_runs none t hev World.start
    rw [hrun] at hruns
    obtain ⟨hgap, hwrote, -⟩ := hruns
    obtain ⟨htempo, hvalid⟩ :=
      (parse_iff t.tempo_pos t.few hgap t.ticks_sorted hwrote.file).1 (hresult hev).1
    exact ⟨htempo, (not_gap_iff _ _ _).1 hgap, hvalid⟩
  · intro h create w
    by_cases hev : t.ev = []
    · refine ⟨false, w, ?_, fun hne => absurd hev hne⟩
      unfold writeSmf
      rw [hev]
      rfl
    · obtain ⟨htempo, hsmall, hvalid⟩ := h hev
      have hgap := (not_gap_iff _ _ _).2 hsmall
      have hroom := length_fileBytes_le hgap t.few
      obtain ⟨⟨r, w'⟩, hrun, -, hwrote, hresult⟩ := (writeSmf_runs create t hev w).total fun e he =>
        he.1.elim hgap (not_lt.2 hroom)
      exact ⟨r, w', hrun, fun _ =>
        ⟨(parse_iff t.tempo_pos t.few hgap t.ticks_sorted hwrote.file).2 ⟨htempo, hvalid⟩, hresult⟩⟩

/-- A single note, after a rest of 2²⁸ milliseconds. -/
def longRest : Tune := ⟨[⟨2 ^ 28, 0x90, 0, 60, 80⟩], 125, by decide, List.pairwise_singleton _ _⟩

/-- The delta has five groups. -/
theorem writeSmf_longRest : ¬ Faithful longRest := by
  intro h
  obtain ⟨r, w', hrun, -⟩ := h none World.start
  have hruns := writeSmf_runs none longRest (List.cons_ne_nil _ _) World.start
  rw [hrun] at hruns
  have htick : tickOf (2 ^ 28) 125 = 2 ^ 28 := by
    rw [tickOf, truncToCard, Nat.floor_eq_iff (by norm_num)]
    norm_num
  refine hruns.1 ⟨tickOf (2 ^ 28) 125 - 0, List.mem_singleton_self _, ?_⟩
  rw [htick]
  exact le_rfl

end call

end NewM2.Winrt.SmfFile
