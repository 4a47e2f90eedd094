import Mathlib
import NewM2.Lib.Chars
import NewM2.Lib.Digits
import NewM2.Lib.Blocks

/-!
# Growable strings (`library/winrtmod/StrBuf.mod`)

A string is kept in a block that is replaced by a larger one when there is no room. The buffers there are have
numbers; `exec` is one operation on them, and `spec` is the same on the texts alone. -/

namespace NewM2.Winrt.StrBuf
open Chars Digits Handles Blocks

def maxIdx : Nat := 268435455

structure Rec where
  len : Nat
  cap : Nat
  data : Address
deriving DecidableEq

/-- The records of the buffers, and the blocks. -/
structure World where
  bufs : List Rec
  heap : Heap (List Code)

abbrev Proc (β : Type) := StateT World (Except Stop) β

/-- `b^` -/
def deref (b : Nat) : Proc Rec := fun w =>
  match w.bufs[b]? with
  | some r => .ok (r, w)
  | none => .error .dangling

/-- `b^ := r` -/
def assign (b : Nat) (r : Rec) : Proc Unit := fun w =>
  if b < w.bufs.length then .ok ((), { w with bufs := w.bufs.set b r }) else .error .dangling

/-- A procedure on the blocks. -/
def onHeap {β : Type} (x : Blocks.Proc Code β) : Proc β := fun w => do
  let (y, h) ← x w.heap
  .ok (y, { w with heap := h })

/-- `d^[i] := c`, where `d` is a PCh. -/
def poke (d : Address) (i : Nat) (c : Code) : Proc Unit := onHeap (Blocks.poke (maxIdx + 1) d i c)

def peek (d : Address) (i : Nat) : Proc Code := onHeap (Blocks.peek (maxIdx + 1) d i)

section procedures
variable (M : Memory Code)

/-- SIZE(CHAR) -/
def sizeOfChar : Nat := 2

/-- A number of rounds that the loop of `Ensure` does not come to unless it goes on for ever. -/
def rounds : Nat := 65

def ensure (b : Nat) (need : Nat) : Proc Unit := do
  let need := wrap (need + 1)
  let r ← deref b
  if need ≤ r.cap then return ()
  else
    match growTo rounds (if r.cap < 16 then 16 else r.cap) need with
    | none => fun _ => .error .rounds
    | some nc => do
      let na ← onHeap (allocate M sizeOfChar (wrap (nc * sizeOfChar)))
      if r.data ≠ none then do
        onHeap (copy (maxIdx + 1) na 0 r.data (r.len + 1) 0)
        onHeap (deallocate r.data)
        assign b { r with data := na, cap := nc }
      else do
        poke na 0 nul
        assign b { r with data := na, cap := nc }

/-- The number of a new buffer. -/
def create : Proc Nat := fun w =>
  (do
    ensure M w.bufs.length 0
    return w.bufs.length : Proc Nat) { w with bufs := w.bufs ++ [⟨0, 0, none⟩] }

def clear (b : Nat) : Proc Unit := do
  let r ← deref b
  assign b { r with len := 0 }
  poke r.data 0 nul

def appendCh (b : Nat) (c : Code) : Proc Unit := do
  ensure M b (wrap ((← deref b).len + 1))
  let r ← deref b
  poke r.data r.len c
  assign b { r with len := wrap (r.len + 1) }
  poke r.data (wrap (r.len + 1)) nul

/-- `d^[b^.len + i] := s[i]`, for all the characters from the `i`-th one on. -/
def putAll (d : Address) (len : Nat) : List Code → Nat → Proc Unit
  | [], _ => return ()
  | c :: cs, i => do
    poke d (len + i) c
    putAll d len cs (i + 1)

/-- The characters of `s` are those before its NUL. -/
def append (b : Nat) (s : Chars) : Proc Unit :=
  if s.length = 0 then return ()
  else do
    ensure M b (wrap ((← deref b).len + s.length))
    let r ← deref b
    putAll r.data r.len s.text 0
    assign b { r with len := wrap (r.len + s.length) }
    poke r.data (wrap (r.len + s.length)) nul

def appendBuf (b other : Nat) : Proc Unit := do
  let o ← deref other
  if o.len = 0 then return ()
  else do
    ensure M b (wrap ((← deref b).len + o.len))
    let r ← deref b
    let o ← deref other
    onHeap (copy (maxIdx + 1) r.data r.len o.data o.len 0)
    assign b { r with len := wrap (r.len + o.len) }
    poke r.data (wrap (r.len + o.len)) nul

/-- `WHILE i > 0 DO DEC(i); AppendCh(b, tmp[i]) END` -/
def appendAll (b : Nat) : List Code → Proc Unit
  | [] => return ()
  | c :: cs => do
    appendCh M b c
    appendAll b cs

/-- `tmp` has 24 elements. -/
def appendCard (b : Nat) (v : BitVec 64) : Proc Unit :=
  if v = 0 then appendCh M b (code '0')
  else if 24 < (lowDigits 10 v.toNat).length then fun _ => .error .indexException
  else appendAll M b (decimal v.toNat)

def appendInt (b : Nat) (v : BitVec 64) : Proc Unit :=
  if v.toInt < 0 then do
    appendCh M b (code '-')
    appendCard M b (-(v + 1) + 1)
  else appendCard M b v

end procedures

def charAt (b i : Nat) : Proc Code := do
  let r ← deref b
  if r.len ≤ i then return nul else peek r.data i

/-- `s[i] := c` -/
def put (s : Chars) (i : Nat) (c : Code) : Proc Chars := fun w =>
  match s.put i c with
  | .ok s => .ok (s, w)
  | .error _ => .error .outside

/-- The loop of `ToStr` with so many characters left, and what is behind it: whether there was room, and `s`. -/
def toStrLoop (d : Address) : Nat → Nat → Chars → Proc (Bool × Chars)
  | 0, i, s =>
    if s.high < i then return (false, s)
    else do
      let s ← put s i nul
      return (true, s)
  | m + 1, i, s =>
    if s.high < i then return (false, s)
    else do
      let c ← peek d i
      let s ← put s i c
      toStrLoop d m (i + 1) s

def toStr (b : Nat) (s : Chars) : Proc (Bool × Chars) := do
  let r ← deref b
  toStrLoop r.data r.len 0 s

/-! ## Operations -/

inductive Op
  | create
  | append (b : Nat) (s : Chars)
  | appendCh (b : Nat) (c : Code)
  | appendBuf (b other : Nat)
  | appendCard (b : Nat) (v : BitVec 64)
  | appendInt (b : Nat) (v : BitVec 64)
  | clear (b : Nat)
  | charAt (b i : Nat)
  | toStr (b : Nat) (s : Chars)

/-- What an operation returns. -/
inductive Out
  | none
  | buffer (b : Nat)
  | char (c : Code)
  | str (ok : Bool) (cells : List Code)
deriving DecidableEq

def exec (M : Memory Code) : Op → Proc Out
  | .create => do return .buffer (← create M)
  | .append b s => do append M b s; return .none
  | .appendCh b c => do appendCh M b c; return .none
  | .appendBuf b other => do appendBuf M b other; return .none
  | .appendCard b v => do appendCard M b v; return .none
  | .appendInt b v => do appendInt M b v; return .none
  | .clear b => do clear b; return .none
  | .charAt b i => do return .char (← charAt b i)
  | .toStr b s => do
    let (ok, s) ← toStr b s
    return .str ok s.cells

def run (M : Memory Code) : List Op → Proc (List Out)
  | [] => return []
  | op :: ops => do
    let o ← exec M op
    let os ← run M ops
    return o :: os

section texts
variable (limit : Nat)

/-- The text of `b` goes on with `v`; a text has at most `limit` characters. -/
def extend (ts : List (List Code)) (b : Nat) (v : List Code) : Option (List (List Code) × Out) :=
  match ts[b]? with
  | none => none
  | some t => if t.length + v.length ≤ limit then some (ts.set b (t ++ v), .none) else none

/-- The decimal number, with its sign. -/
def integer (v : BitVec 64) : List Code := (if v.toInt < 0 then [code '-'] else []) ++ decimal v.toInt.natAbs

/-- The same operation on texts; `none` if there is no such buffer or a text becomes too long. -/
def spec (ts : List (List Code)) : Op → Option (List (List Code) × Out)
  | .create => some (ts ++ [[]], .buffer ts.length)
  | .append b s => extend limit ts b s.text
  | .appendCh b c => extend limit ts b [c]
  | .appendBuf b other => ts[other]?.bind (extend limit ts b)
  | .appendCard b v => extend limit ts b (decimal v.toNat)
  | .appendInt b v => extend limit ts b (integer v)
  | .clear b => ts[b]?.map fun _ => (ts.set b [], .none)
  | .charAt b i => ts[b]?.map fun t => (ts, .char (t.getD i nul))
  | .toStr b s => ts[b]?.map fun t =>
    (ts, .str (decide (t.length < s.size)) ((t ++ [nul]).take s.size ++ s.cells.drop (t.length + 1)))

def specRun (ts : List (List Code)) : List Op → Option (List (List Code) × List Out)
  | [] => some (ts, [])
  | op :: ops => do
    let (ts, o) ← spec limit ts op
    let (ts, os) ← specRun ts ops
    return (ts, o :: os)

end texts

/-- No buffers. -/
def World.start : World := ⟨[], []⟩

/-- The buffers hold the texts, each with a NUL behind it, in blocks of their own, and there are no other blocks. -/
structure Holds (ts : List (List Code)) (w : World) : Prop where
  count : w.bufs.length = ts.length
  blocks : (inUse w.heap).length = ts.length
  nodup : (w.bufs.map Rec.data).Nodup
  text : ∀ (b : Nat) (t : List Code), ts[b]? = some t → ∃ (r : Rec) (c : Handle) (cells : List Code), w.bufs[b]? = some r ∧ r.len = t.length ∧
    r.len < r.cap ∧ r.data = some c ∧ w.heap[c]? = some (some cells) ∧ cells.length = r.cap ∧ t ++ [nul] <+: cells

/-! ## Sound worlds -/

/-- A buffer with its block. -/
structure Buffer where
  addr : Handle
  cap : Nat
  text : List Code
  fits : text.length < cap
  pow : ∃ j, 4 ≤ j ∧ j ≤ 28 ∧ cap = 2 ^ j

namespace Buffer

def record (q : Buffer) : Rec := ⟨q.text.length, q.cap, some q.addr⟩

def block (q : Buffer) : Handle × (Nat × List Code) := (q.addr, (q.cap, q.text ++ [nul]))

theorem cap_le (q : Buffer) : q.cap ≤ 2 ^ 28 := by
  obtain ⟨j, -, hj, hcap⟩ := q.pow
  rw [hcap]
  exact Nat.pow_le_pow_right (by decide) hj

end Buffer

structure Sound (bs : List Buffer) (w : World) : Prop where
  bufs : w.bufs = bs.map Buffer.record
  heap : Owns IsBlock [] w.heap (bs.map Buffer.block)

/-- The blocks of the other buffers. -/
def rest (bs : List Buffer) (b : Nat) : List (Handle × (Nat × List Code)) := (bs.eraseIdx b).map Buffer.block

/-- The block of the buffer `b`, which is `q` in `bs`, begins with `p`. -/
structure Opened (bs : List Buffer) (b : Nat) (q : Buffer) (p : List Code) (w : World) : Prop where
  buffer : bs[b]? = some q
  bufs : w.bufs = bs.map Buffer.record
  heap : Owns IsBlock [] w.heap ((q.addr, (q.cap, p)) :: rest bs b)

section sound
variable {bs : List Buffer} {w : World} {b : Nat} {q q' : Buffer} {p v : List Code} {r : Rec} {allowed : Stop → Prop}

theorem perm_block (h : bs[b]? = some q) : (bs.map Buffer.block).Perm (q.block :: rest bs b) := by
  obtain ⟨hlt, hget⟩ := List.getElem?_eq_some_iff.1 h
  rw [← hget]
  exact ((List.getElem_cons_eraseIdx_perm hlt).map Buffer.block).symm

theorem rest_set (bs : List Buffer) (b : Nat) (q : Buffer) : rest (bs.set b q) b = rest bs b := by
  rw [rest, List.eraseIdx_set_eq, rest]

theorem getElem?_set (h : bs[b]? = some q) (q' : Buffer) : (bs.set b q')[b]? = some q' :=
  List.getElem?_set_self (List.getElem?_eq_some_iff.1 h).1

theorem Sound.opened (hs : Sound bs w) (h : bs[b]? = some q) : Opened bs b q (q.text ++ [nul]) w :=
  ⟨h, hs.bufs, hs.heap.perm (perm_block h)⟩

theorem Opened.weaken (ho : Opened bs b q p w) {p' : List Code} (hp : p' <+: p) : Opened bs b q p' w :=
  ⟨ho.buffer, ho.bufs, Blocks.weaken ho.heap hp⟩

/-- A buffer with another text in its block. -/
theorem sound_set (h : bs[b]? = some q) (hbufs : w.bufs = (bs.map Buffer.record).set b q'.record)
    (hheap : Owns IsBlock [] w.heap (q'.block :: rest bs b)) : Sound (bs.set b q') w := by
  refine ⟨by rw [hbufs, List.map_set], hheap.perm ?_⟩
  rw [← rest_set bs b q']
  exact (perm_block (getElem?_set h q')).symm

theorem deref_reads (h : w.bufs[b]? = some r) : Reads allowed (deref b) w (· = r) := by
  rw [Reads, deref, h]
  exact Runs.ok ⟨rfl, rfl⟩

theorem Opened.deref_reads (ho : Opened bs b q p w) : Reads allowed (deref b) w (· = q.record) :=
  StrBuf.deref_reads (by rw [ho.bufs, List.getElem?_map, ho.buffer]; rfl)

theorem assign_runs (hb : b < w.bufs.length) (r : Rec) :
    Runs allowed (assign b r w) fun x => x.2.bufs = w.bufs.set b r ∧ x.2.heap = w.heap := by
  rw [assign, if_pos hb]
  exact Runs.ok ⟨rfl, rfl⟩

theorem Opened.lt (ho : Opened bs b q p w) : b < w.bufs.length := by
  rw [ho.bufs, List.length_map]
  exact (List.getElem?_eq_some_iff.1 ho.buffer).1

theorem onHeap_runs {β : Type} {x : Blocks.Proc Code β} {Q : β × Heap (List Code) → Prop}
    (h : Runs allowed (x w.heap) Q) :
    Runs allowed (onHeap x w) fun y => Q (y.1, y.2.heap) ∧ y.2.bufs = w.bufs :=
  h.bind fun _ ha => Runs.ok ⟨ha, rfl⟩

theorem Opened.poke_end (ho : Opened bs b q p w) (hcap : p.length < q.cap) (c : Code) :
    Runs allowed (poke (some q.addr) p.length c w) fun r => Opened bs b q (p ++ [c]) r.2 := by
  have hle := q.cap_le
  have hlimit : p.length < maxIdx + 1 := by
    rw [maxIdx]
    omega
  refine (onHeap_runs (Blocks.poke_end ho.heap hlimit hcap c)).mono fun r hr => ⟨ho.buffer, ?_, hr.1⟩
  rw [hr.2, ho.bufs]

/-- The text of `b` goes on with `v`, and the other buffers are as they were. -/
def Extends (bs : List Buffer) (b : Nat) (q : Buffer) (v : List Code) (w : World) : Prop :=
  ∃ q' : Buffer, q'.text = q.text ++ v ∧ Sound (bs.set b q') w

theorem set_self (h : bs[b]? = some q) : bs.set b q = bs := by
  obtain ⟨hlt, hget⟩ := List.getElem?_eq_some_iff.1 h
  rw [← hget, List.set_getElem_self]

theorem Extends.refl (hs : Sound bs w) (h : bs[b]? = some q) : Extends bs b q [] w :=
  ⟨q, (List.append_nil _).symm, by rwa [set_self h]⟩

/-- The new length, and the NUL. -/
theorem finish_runs (ho : Opened bs b q (q.text ++ v) w) (hcap : q.text.length + v.length < q.cap) :
    Runs allowed ((do
      assign b { q.record with len := wrap (q.record.len + v.length) }
      poke q.record.data (wrap (q.record.len + v.length)) nul : Proc Unit) w) fun r =>
        Extends bs b q v r.2 := by
  have hle := q.cap_le
  have hwrap : wrap (q.record.len + v.length) = (q.text ++ v).length := by
    rw [List.length_append]
    exact wrap_of_lt (by change q.text.length + _ < _; omega)
  have hlen : (q.text ++ v).length < q.cap := by rwa [List.length_append]
  rw [hwrap]
  let q' : Buffer := ⟨q.addr, q.cap, q.text ++ v, hlen, q.pow⟩
  refine Runs.bindS (assign_runs ho.lt _) ?_
  rintro _ w₁ ⟨hbufs, hheap⟩
  have hle' : (q.text ++ v).length < maxIdx + 1 := by
    rw [maxIdx]
    omega
  have ho₁ : Owns IsBlock [] w₁.heap ((q.addr, (q.cap, q.text ++ v)) :: rest bs b) := hheap ▸ ho.heap
  refine (onHeap_runs (Blocks.poke_end ho₁ hle' hlen nul)).mono fun r hr => ⟨q', rfl, ?_⟩
  refine sound_set ho.buffer ?_ hr.1
  rw [hr.2, hbufs, ho.bufs]
  rfl

end sound

/-! ## Each operation -/

section operations
variable {M : Memory Code} {bs : List Buffer} {w : World} {b : Nat} {q q' : Buffer} {p v : List Code} {need : Nat}
  {allowed : Stop → Prop}

/-- There is room afterwards, in the old block or in a new one. -/
theorem ensure_runs (hs : Sound bs w) (h : bs[b]? = some q) (hneed : need < 2 ^ 28) :
    Runs allowed (ensure M b need w) fun r =>
      ∃ q' : Buffer, q'.text = q.text ∧ need < q'.cap ∧ Sound (bs.set b q') r.2 := by
  have ho := hs.opened h
  have hwrap : wrap (need + 1) = need + 1 := wrap_of_lt (by omega)
  rw [ensure, hwrap]
  refine ho.deref_reads.bind fun r hr => ?_
  rw [hr]
  by_cases hroom : need + 1 ≤ q.cap
  · rw [if_pos (show need + 1 ≤ q.record.cap from hroom)]
    exact Runs.ok ⟨q, rfl, hroom, by rwa [set_self h]⟩
  · rw [if_neg (show ¬ need + 1 ≤ q.record.cap from hroom)]
    obtain ⟨j, hj, hj', hcap⟩ := q.pow
    have h16 : ¬ q.record.cap < 16 := by
      have hpow : 2 ^ 4 ≤ 2 ^ j := Nat.pow_le_pow_right (by decide) hj
      change ¬ q.cap < 16
      omega
    obtain ⟨j', hgrow, hle, hjj', hj''⟩ :=
      @growTo_pow rounds j 28 (need + 1) hj' (by decide) (by omega) (by rw [rounds]; omega)
    rw [if_neg h16, show q.record.cap = 2 ^ j from hcap, hgrow]
    have hpow : 2 ^ j' ≤ 2 ^ 28 := Nat.pow_le_pow_right (by decide) hj''
    have hpos : 0 < 2 ^ j' := Nat.pow_pos (by decide)
    have hsize : wrap (2 ^ j' * sizeOfChar) = 2 ^ j' * 2 := wrap_of_lt (by rw [sizeOfChar]; omega)
    dsimp only
    rw [hsize]
    refine Runs.bindS (onHeap_runs (allocate_runs M (by omega) (by omega) ho.heap)) ?_
    rintro na w₁ ⟨⟨c, hna, hown₁⟩, hbufs₁⟩
    obtain rfl : na = some c := hna
    rw [if_pos (show q.record.data ≠ none from Option.some_ne_none _)]
    rw [sizeOfChar, Nat.mul_div_cancel _ (by decide)] at hown₁
    have hfits := q.fits
    have hlen : (q.text ++ [nul]).length = q.text.length + 1 := List.length_append
    have hle₁ := q.cap_le
    have hread : ∀ i h, i < (q.text ++ [nul]).length →
        Owns IsBlock [] h ((c, (2 ^ j', [] ++ (q.text ++ [nul]).take i)) :: q.block :: rest bs b) →
        Reads allowed (Blocks.peek (maxIdx + 1) q.record.data i) h fun x => (q.text ++ [nul])[i]? = some x :=
      fun i h hi hown => peek_reads hown (List.mem_cons_of_mem _ (List.mem_cons_self ..)) hi (by rw [maxIdx]; omega)
    have hnil : 0 = ([] : List Code).length := rfl
    rw [show q.record.len + 1 = (q.text ++ [nul]).length from hlen.symm]
    refine Runs.bindS (onHeap_runs (copyAll_runs hnil hread ?_ ?_ hown₁)) ?_
    · rw [List.length_nil]
      omega
    · rw [List.length_nil, maxIdx]
      omega
    rintro _ w₂ ⟨hown₂, hbufs₂⟩
    refine Runs.bindS (onHeap_runs (deallocate_runs hown₂.second)) ?_
    rintro _ w₃ ⟨hown₃, hbufs₃⟩
    have hw₃ : w₃.bufs = w.bufs := hbufs₃.trans (hbufs₂.trans hbufs₁)
    let q' : Buffer := ⟨c, 2 ^ j', q.text, by omega, j', by omega, hj'', rfl⟩
    refine (assign_runs (hw₃ ▸ ho.lt) q'.record).mono fun r hr => ⟨q', rfl, hle, ?_⟩
    refine sound_set h ?_ ?_
    · rw [hr.1, hw₃, ho.bufs]
    · rw [hr.2]
      exact hown₃

/-- A procedure that puts `v` behind the text of `b`, if there is an index for it. -/
def Does (allowed : Stop → Prop) (x : Proc Unit) (b : Nat) (v : List Code) : Prop :=
  ∀ bs w q, Sound bs w → bs[b]? = some q → q.text.length + v.length ≤ maxIdx →
    Runs allowed (x w) fun r => Extends bs b q v r.2

theorem Does.nil : Does allowed (pure ()) b [] := fun _ _ _ hs h _ => Runs.ok (Extends.refl hs h)

theorem Does.bind {x y : Proc Unit} (hx : Does allowed x b v) {v' : List Code} (hy : Does allowed y b v') :
    Does allowed (do
      x
      y) b (v ++ v') := by
  intro bs w q hs h hlen
  rw [List.length_append] at hlen
  refine Runs.bindS (hx bs w q hs h (by omega)) ?_
  rintro _ w' ⟨q', htext, hs'⟩
  refine (hy (bs.set b q') w' q' hs' (getElem?_set h q') (by rw [htext, List.length_append]; omega)).mono ?_
  rintro r ⟨q'', htext', hs''⟩
  rw [List.set_set] at hs''
  exact ⟨q'', by rw [htext', htext, List.append_assoc], hs''⟩

/-- With room for `n` more characters the rest of a procedure goes on. -/
theorem room_runs {x : Rec → Proc Unit} {n : Nat} {Q : Unit × World → Prop} (hs : Sound bs w) (h : bs[b]? = some q)
    (hlen : q.text.length + n ≤ maxIdx)
    (hx : ∀ q' : Buffer, ∀ w', q'.text = q.text → q.text.length + n < q'.cap → Sound (bs.set b q') w' →
      Opened (bs.set b q') b q' q'.text w' → Runs allowed (x q'.record w') Q) :
    Runs allowed ((do
      let r ← deref b
      ensure M b (wrap (r.len + n))
      let r ← deref b
      x r : Proc Unit) w) Q := by
  rw [maxIdx] at hlen
  refine (hs.opened h).deref_reads.bind fun r hr => ?_
  have hwrap : wrap (r.len + n) = q.text.length + n := by
    rw [hr]
    exact wrap_of_lt (by change q.text.length + n < _; omega)
  rw [hwrap]
  refine Runs.bindS (ensure_runs hs h (by omega)) ?_
  rintro _ w' ⟨q', htext, hcap, hs'⟩
  have ho := hs'.opened (getElem?_set h q')
  refine ho.deref_reads.bind fun r' hr' => ?_
  rw [hr']
  exact hx q' w' htext hcap hs' (ho.weaken (List.prefix_append _ _))

/-- Behind the writing: the new text. -/
theorem Extends.of_set (htext : q'.text = q.text) (he : Extends (bs.set b q') b q' v w) : Extends bs b q v w := by
  obtain ⟨q'', htext', hs⟩ := he
  rw [List.set_set] at hs
  exact ⟨q'', by rw [htext', htext], hs⟩

theorem appendCh_does (c : Code) : Does allowed (appendCh M b c) b [c] := by
  intro bs w q hs h hlen
  refine room_runs hs h hlen fun q' w' htext hcap _ ho => ?_
  rw [← htext] at hcap
  refine Runs.bindS (ho.poke_end (by omega) c) fun _ w'' ho' => ?_
  exact (finish_runs ho' hcap).mono fun r hr => hr.of_set htext

theorem putAll_runs (ho : Opened bs b q (q.text ++ p) w) (cs : List Code)
    (hcap : q.text.length + (p.length + cs.length) < q.cap) :
    Runs allowed (putAll (some q.addr) q.text.length cs p.length w) fun r =>
      Opened bs b q (q.text ++ (p ++ cs)) r.2 := by
  induction cs generalizing p w with
  | nil =>
    rw [List.append_nil]
    exact Runs.ok ho
  | cons c cs ih =>
    have hlen : (q.text ++ p).length = q.text.length + p.length := List.length_append
    rw [List.length_cons] at hcap
    have hpoke : Runs allowed (poke (some q.addr) (q.text ++ p).length c w) _ := ho.poke_end (by omega) c
    rw [hlen] at hpoke
    refine Runs.bindS hpoke fun _ w' ho' => ?_
    rw [List.append_assoc] at ho'
    have hnext := ih ho' (by rw [List.length_append, List.length_singleton]; omega)
    rwa [List.length_append, List.length_singleton, List.append_assoc, List.singleton_append] at hnext

theorem append_does (s : Chars) : Does allowed (append M b s) b s.text := by
  intro bs w q hs h hlen
  have htext := length_eq s
  rw [append]
  split_ifs with hzero
  · rw [List.length_eq_zero_iff.1 (htext.symm.trans hzero)]
    exact Runs.ok (Extends.refl hs h)
  · rw [← htext] at hlen
    refine room_runs hs h hlen fun q' w' htext' hcap _ ho => ?_
    rw [← htext', htext] at hcap
    have hput := @putAll_runs _ _ _ q' [] allowed (by rwa [List.append_nil]) s.text (by rwa [List.length_nil, Nat.zero_add])
    refine Runs.bindS hput fun _ w'' ho' => ?_
    rw [List.nil_append] at ho'
    rw [htext]
    exact (finish_runs ho' hcap).mono fun r hr => hr.of_set htext'

theorem mem_rest {o : Nat} {q₂ : Buffer} (h : bs[o]? = some q₂) (hne : o ≠ b) : q₂.block ∈ rest bs b :=
  List.mem_map_of_mem (List.mem_eraseIdx_iff_getElem?.2 ⟨o, hne, h⟩)

/-- The text of a buffer, the same one or another one, behind that of `b`. -/
theorem appendBuf_runs {o : Nat} {qo : Buffer} (hs : Sound bs w) (h : bs[b]? = some q) (ho : bs[o]? = some qo)
    (hlen : q.text.length + qo.text.length ≤ maxIdx) :
    Runs allowed (appendBuf M b o w) fun r => Extends bs b q qo.text r.2 := by
  refine (hs.opened ho).deref_reads.bind fun r hr => ?_
  rw [hr]
  by_cases hzero : qo.record.len = 0
  · rw [if_pos hzero, List.length_eq_zero_iff.1 (show qo.text.length = 0 from hzero)]
    exact Runs.ok (Extends.refl hs h)
  · rw [if_neg hzero]
    refine room_runs hs h hlen fun q' w' htext hcap hs' hopen => ?_
    -- `other` may be `b`, and then its block is the new one too
    obtain ⟨q₂, hq₂, htext₂⟩ : ∃ q₂, (bs.set b q')[o]? = some q₂ ∧ q₂.text = qo.text := by
      by_cases hob : o = b
      · rw [hob] at ho ⊢
        rw [h] at ho
        obtain rfl := Option.some_inj.1 ho
        exact ⟨q', getElem?_set h q', htext⟩
      · exact ⟨qo, by rw [List.getElem?_set_ne (Ne.symm hob), ho], rfl⟩
    refine (hs'.opened hq₂).deref_reads.bind fun r₂ hr₂ => ?_
    have hcap₂ := q₂.fits.le.trans q₂.cap_le
    have hcap' := q'.cap_le
    replace hcap : q'.text.length + q₂.text.length < q'.cap := by
      rw [htext, htext₂]
      exact hcap
    have hread : ∀ i h, i < q₂.text.length →
        Owns IsBlock [] h ((q'.addr, (q'.cap, q'.text ++ q₂.text.take i)) :: rest (bs.set b q') b) →
        Reads allowed (Blocks.peek (maxIdx + 1) (some q₂.addr) i) h fun x => q₂.text[i]? = some x := by
      intro i h' hi hown
      have hlimit : i < maxIdx + 1 := by
        rw [maxIdx]
        omega
      by_cases hob : o = b
      · rw [hob, getElem?_set h q'] at hq₂
        obtain rfl := Option.some_inj.1 hq₂
        have hpeek : Reads allowed _ h' _ := peek_reads hown (List.mem_cons_self ..)
          (by rw [List.length_append]; omega) hlimit
        rw [List.getElem?_append_left hi] at hpeek
        exact hpeek
      · have hpeek : Reads allowed _ h' _ := peek_reads hown (List.mem_cons_of_mem _ (mem_rest hq₂ hob))
          (by rw [List.length_append]; omega) hlimit
        rw [List.getElem?_append_left hi] at hpeek
        exact hpeek
    rw [hr₂, show q₂.record.len = q₂.text.length from rfl, ← htext₂]
    refine Runs.bindS (onHeap_runs (copyAll_runs rfl hread hcap.le (by rw [maxIdx]; omega) hopen.heap)) ?_
    rintro _ w'' ⟨hown, hbufs⟩
    have ho' : Opened (bs.set b q') b q' (q'.text ++ q₂.text) w'' := ⟨hopen.buffer, hbufs.trans hopen.bufs, hown⟩
    exact (finish_runs ho' hcap).mono fun r hr => hr.of_set htext

theorem appendAll_does (cs : List Code) : Does allowed (appendAll M b cs) b cs := by
  induction cs with
  | nil => exact Does.nil
  | cons c cs ih => exact Does.bind (v := [c]) (appendCh_does c) ih

theorem decimal_zero : decimal 0 = [code '0'] := by
  rw [decimal_eq, if_pos rfl]
  rfl

theorem appendCard_does (v : BitVec 64) : Does allowed (appendCard M b v) b (decimal v.toNat) := by
  rw [appendCard]
  by_cases hzero : v = 0
  · rw [if_pos hzero, hzero, show (0 : BitVec 64).toNat = 0 from rfl, decimal_zero]
    exact appendCh_does _
  · have hlt := v.isLt
    have hlen : (decimal v.toNat).length ≤ 20 := length_decimal_le (by decide) (by omega)
    rw [decimal, List.length_map, List.length_reverse] at hlen
    rw [if_neg hzero, if_neg (by omega)]
    exact appendAll_does _

theorem appendInt_does (v : BitVec 64) : Does allowed (appendInt M b v) b (integer v) := by
  rw [appendInt, integer]
  by_cases hneg : v.toInt < 0
  · have habs : (-(v + 1) + 1).toNat = v.toInt.natAbs := by
      rw [BitVec.toInt_eq_toNat_cond] at hneg ⊢
      have hlt := v.isLt
      have hadd : -(v + 1) + 1 = -v := by ring
      rw [hadd, BitVec.toNat_neg]
      split_ifs at hneg ⊢ with hhalf
      · omega
      · rw [Nat.mod_eq_of_lt (by omega)]
        omega
    rw [if_pos hneg, if_pos hneg, ← habs]
    exact (appendCh_does _).bind (appendCard_does _)
  · have habs : v.toNat = v.toInt.natAbs := by
      rw [BitVec.toInt_eq_toNat_cond] at hneg ⊢
      split_ifs at hneg ⊢ with hhalf
      · omega
      · have hlt := v.isLt
        omega
    rw [if_neg hneg, if_neg hneg, List.nil_append, ← habs]
    exact appendCard_does _

theorem clear_runs (hs : Sound bs w) (h : bs[b]? = some q) :
    Runs allowed (clear b w) fun r => ∃ q' : Buffer, q'.text = [] ∧ Sound (bs.set b q') r.2 := by
  have ho := hs.opened h
  have hfits := q.fits
  let q' : Buffer := ⟨q.addr, q.cap, [], Nat.zero_lt_of_lt hfits, q.pow⟩
  refine ho.deref_reads.bind fun r hr => ?_
  rw [hr]
  refine Runs.bindS (assign_runs ho.lt _) ?_
  rintro _ w₁ ⟨hbufs, hheap⟩
  have hown : Owns IsBlock [] w₁.heap ((q.addr, (q.cap, [])) :: rest bs b) := by
    rw [hheap]
    exact (ho.weaken List.nil_prefix).heap
  have hpoke : Runs allowed (Blocks.poke (maxIdx + 1) (some q.addr) ([] : List Code).length nul w₁.heap) _ :=
    Blocks.poke_end hown (by decide) (Nat.zero_lt_of_lt hfits) nul
  refine (onHeap_runs hpoke).mono fun r hr => ⟨q', rfl, sound_set h ?_ hr.1⟩
  rw [hr.2, hbufs, ho.bufs]
  rfl

theorem Sound.peek_reads (hs : Sound bs w) (h : bs[b]? = some q) {i : Nat} (hi : i < q.text.length) :
    Reads allowed (peek (some q.addr) i) w fun c => q.text[i]? = some c := by
  have hcap := q.cap_le
  have hfits := q.fits
  have hpeek : Reads allowed _ w.heap _ := Blocks.peek_reads (hs.opened h).heap (List.mem_cons_self ..)
    (by rw [List.length_append]; omega) (show i < maxIdx + 1 by rw [maxIdx]; omega)
  rw [List.getElem?_append_left hi] at hpeek
  refine (onHeap_runs hpeek).mono ?_
  rintro ⟨x, w'⟩ ⟨⟨hx, hheap⟩, hbufs⟩
  refine ⟨hx, ?_⟩
  obtain ⟨bufs, heap⟩ := w
  obtain ⟨bufs', heap'⟩ := w'
  rw [show bufs' = bufs from hbufs, show heap' = heap from hheap]

theorem charAt_reads (hs : Sound bs w) (h : bs[b]? = some q) (i : Nat) :
    Reads allowed (charAt b i) w (· = q.text.getD i nul) := by
  refine (hs.opened h).deref_reads.bind fun r hr => ?_
  rw [hr]
  by_cases hi : q.record.len ≤ i
  · rw [if_pos hi]
    exact Runs.ok ⟨by rw [List.getD_eq_default _ _ hi], rfl⟩
  · rw [if_neg hi]
    refine (hs.peek_reads h (not_le.1 hi)).mono fun r hr => ⟨?_, hr.2⟩
    rw [List.getD_eq_getElem?_getD, hr.1]
    rfl

theorem put_reads {s : Chars} {i : Nat} (hi : i < s.size) (c : Code) (w : World) :
    Reads allowed (put s i c) w fun s' => s'.cells = s.cells.set i c := by
  rw [Reads, put, Chars.put, if_pos hi]
  exact Runs.ok ⟨rfl, rfl⟩

theorem set_behind {p l : List Code} {i : Nat} (hp : p.length = i) (hi : i < l.length) (c : Code) :
    (p ++ l.drop i).set i c = (p ++ [c]) ++ l.drop (i + 1) := by
  rw [List.set_append_right _ _ hp.le, hp, Nat.sub_self, List.drop_eq_getElem_cons hi, List.set_cons_zero,
    List.append_assoc, List.singleton_append]

/-- The characters before the `i`-th one are copied. -/
theorem toStrLoop_reads (hs : Sound bs w) (h : bs[b]? = some q) (s₀ : Chars) (m : Nat) {i : Nat} {s : Chars}
    (hm : i + m = q.text.length) (hi : i ≤ s₀.size) (hcells : s.cells = q.text.take i ++ s₀.cells.drop i) :
    Reads allowed (toStrLoop (some q.addr) m i s) w fun r => r.1 = decide (q.text.length < s₀.size) ∧
      r.2.cells = (q.text ++ [nul]).take s₀.size ++ s₀.cells.drop (q.text.length + 1) := by
  have htake : (q.text.take i).length = i := by
    rw [List.length_take]
    omega
  have hsize : s.size = s₀.size := by
    rw [Chars.size, hcells, List.length_append, htake, List.length_drop, ← Chars.size]
    omega
  have hfull : s.high < i → Reads allowed (pure (false, s) : Proc (Bool × Chars)) w fun r =>
      r.1 = decide (q.text.length < s₀.size) ∧
        r.2.cells = (q.text ++ [nul]).take s₀.size ++ s₀.cells.drop (q.text.length + 1) := by
    intro hhigh
    have heq : i = s₀.size := by
      have := s.high_add_one
      omega
    refine Runs.ok ⟨⟨(decide_eq_false (by omega)).symm, ?_⟩, rfl⟩
    rw [hcells, List.drop_of_length_le (by rw [← Chars.size]; omega), List.drop_of_length_le (by rw [← Chars.size]; omega),
      heq, List.take_append_of_le_length (by omega)]
  have hlt : ¬ s.high < i → i < s₀.cells.length := by
    intro hhigh
    have := s.high_add_one
    rw [← Chars.size]
    omega
  cases m with
  | zero =>
    rw [toStrLoop]
    by_cases hhigh : s.high < i
    · rw [if_pos hhigh]
      exact hfull hhigh
    · rw [if_neg hhigh]
      have hi' := hlt hhigh
      refine (put_reads (by rwa [hsize]) nul w).bind fun s' hs' => Runs.ok ⟨⟨?_, ?_⟩, rfl⟩
      · exact (decide_eq_true (by rw [Chars.size]; omega)).symm
      · have htext : q.text.take i = q.text := List.take_of_length_le (by omega)
        rw [hs', hcells, set_behind htake hi', htext, List.take_of_length_le, show q.text.length = i by omega]
        rw [List.length_append, List.length_singleton, Chars.size]
        omega
  | succ m =>
    rw [toStrLoop]
    by_cases hhigh : s.high < i
    · rw [if_pos hhigh]
      exact hfull hhigh
    · rw [if_neg hhigh]
      have hi' := hlt hhigh
      have hit : i < q.text.length := by omega
      refine (hs.peek_reads h hit).bind fun c hc => ?_
      refine (put_reads (by rwa [hsize]) c w).bind fun s' hs' => ?_
      have hnext : q.text.take (i + 1) = q.text.take i ++ [c] := by
        rw [List.take_add_one, hc]
        rfl
      refine toStrLoop_reads hs h s₀ m (by omega) hi' ?_
      rw [hs', hcells, set_behind htake hi', hnext]
termination_by m

theorem toStr_reads (hs : Sound bs w) (h : bs[b]? = some q) (s : Chars) :
    Reads allowed (toStr b s) w fun r => r.1 = decide (q.text.length < s.size) ∧
      r.2.cells = (q.text ++ [nul]).take s.size ++ s.cells.drop (q.text.length + 1) := by
  refine (hs.opened h).deref_reads.bind fun r hr => ?_
  rw [hr]
  exact toStrLoop_reads hs h s _ (Nat.zero_add _) (Nat.zero_le _) rfl

/-- A new buffer comes behind the others. -/
theorem create_runs (hs : Sound bs w) :
    Runs allowed (create M w) fun r => r.1 = bs.length ∧
      ∃ q : Buffer, q.text = [] ∧ Sound (bs ++ [q]) r.2 := by
  have hcount : w.bufs.length = bs.length := by rw [hs.bufs, List.length_map]
  let w₀ : World := { w with bufs := w.bufs ++ [⟨0, 0, none⟩] }
  have hget : w₀.bufs[w.bufs.length]? = some ⟨0, 0, none⟩ := List.getElem?_concat_length
  have hgrow : growTo rounds 16 1 = some 16 := rfl
  have hensure : Runs allowed (ensure M w.bufs.length 0 w₀) fun r =>
      ∃ q : Buffer, q.text = [] ∧ Sound (bs ++ [q]) r.2 := by
    rw [ensure]
    refine (deref_reads hget).bind fun r hr => ?_
    rw [hr]
    change Runs allowed ((do
      let na ← onHeap (allocate M 2 32)
      poke na 0 nul
      assign w.bufs.length ⟨0, 16, na⟩ : Proc Unit) w₀) _
    refine Runs.bindS (onHeap_runs (allocate_runs M (by decide) (by decide) hs.heap)) ?_
    rintro na w₁ ⟨⟨c, hna, hown⟩, hbufs⟩
    obtain rfl : na = some c := hna
    have hpoke : Runs allowed (Blocks.poke (maxIdx + 1) (some c) ([] : List Code).length nul w₁.heap) _ :=
      Blocks.poke_end hown (by decide) (by decide) nul
    refine Runs.bindS (onHeap_runs hpoke) ?_
    rintro _ w₂ ⟨hown₂, hbufs₂⟩
    have hw₂ : w₂.bufs = w.bufs ++ [⟨0, 0, none⟩] := hbufs₂.trans hbufs
    let q : Buffer := ⟨c, 16, [], by decide, 4, by decide, by decide, rfl⟩
    refine (assign_runs (by rw [hw₂, List.length_append]; exact Nat.lt_succ_self _) _).mono fun r hr => ⟨q, rfl, ?_, ?_⟩
    · rw [hr.1, hw₂, List.set_append_right _ _ le_rfl, Nat.sub_self, List.set_cons_zero, hs.bufs, List.map_append]
      rfl
    · rw [hr.2, List.map_append]
      exact hown₂.perm (List.perm_append_singleton _ _).symm
  rw [create]
  refine Runs.bindS hensure fun _ w' hw' => Runs.ok ⟨hcount, hw'⟩

theorem getElem?_map_text {ts : List (List Code)} {t : List Code} (hts : bs.map Buffer.text = ts) (ht : ts[b]? = some t) :
    ∃ q, bs[b]? = some q ∧ q.text = t := by
  rw [← hts, List.getElem?_map, Option.map_eq_some_iff] at ht
  exact ht

/-- The texts are those of sound buffers. -/
def Represents (ts : List (List Code)) (w : World) : Prop := ∃ bs, bs.map Buffer.text = ts ∧ Sound bs w

theorem extend_eq_some {ts ts' : List (List Code)} {o : Out} (hspec : extend maxIdx ts b v = some (ts', o)) :
    ∃ t, ts[b]? = some t ∧ t.length + v.length ≤ maxIdx ∧ ts' = ts.set b (t ++ v) ∧ o = .none := by
  rw [extend] at hspec
  cases ht : ts[b]? with
  | none =>
    rw [ht] at hspec
    cases hspec
  | some t =>
    rw [ht] at hspec
    dsimp only at hspec
    split_ifs at hspec with hlen
    obtain ⟨rfl, rfl⟩ := Prod.mk.inj (Option.some_inj.1 hspec)
    exact ⟨t, rfl, hlen, rfl, rfl⟩

theorem Extends.represents {ts : List (List Code)} (he : Extends bs b q v w) (hts : bs.map Buffer.text = ts) :
    Represents (ts.set b (q.text ++ v)) w := by
  obtain ⟨q', htext, hs⟩ := he
  exact ⟨bs.set b q', by rw [List.map_set, htext, hts], hs⟩

theorem Does.extend {x : Proc Unit} {ts ts' : List (List Code)} {o : Out} (hx : Does allowed x b v)
    (hw : Represents ts w) (hspec : extend maxIdx ts b v = some (ts', o)) :
    Runs allowed ((do
      x
      return Out.none : Proc Out) w) fun r => r.1 = o ∧ Represents ts' r.2 := by
  obtain ⟨bs, hts, hs⟩ := hw
  obtain ⟨t, ht, hlen, rfl, rfl⟩ := extend_eq_some hspec
  obtain ⟨q, hq, rfl⟩ := getElem?_map_text hts ht
  exact Runs.bindS (hx bs w q hs hq hlen) fun _ _ he => Runs.ok ⟨rfl, he.represents hts⟩

/-- An operation does to the buffers what it does to the texts. -/
theorem exec_runs {op : Op} {ts ts' : List (List Code)} {o : Out} (hw : Represents ts w)
    (hspec : spec maxIdx ts op = some (ts', o)) :
    Runs allowed (exec M op w) fun r => r.1 = o ∧ Represents ts' r.2 := by
  cases op with
  | create =>
    obtain ⟨bs, hts, hs⟩ := hw
    obtain ⟨rfl, rfl⟩ := Prod.mk.inj (Option.some_inj.1 hspec)
    refine Runs.bindS (create_runs hs) ?_
    rintro b w' ⟨hb, q, htext, hs'⟩
    refine Runs.ok ⟨?_, bs ++ [q], by rw [List.map_append, List.map_singleton, htext, hts], hs'⟩
    rw [show b = bs.length from hb, ← hts, List.length_map]
  | append b s => exact (append_does s).extend hw hspec
  | appendCh b c => exact (appendCh_does c).extend hw hspec
  | appendBuf b other =>
    obtain ⟨bs, hts, hs⟩ := hw
    obtain ⟨u, hu, hspec⟩ := Option.bind_eq_some_iff.1 hspec
    obtain ⟨t, ht, hlen, rfl, rfl⟩ := extend_eq_some hspec
    obtain ⟨q, hq, rfl⟩ := getElem?_map_text hts ht
    obtain ⟨qo, hqo, rfl⟩ := getElem?_map_text hts hu
    exact Runs.bindS (appendBuf_runs hs hq hqo hlen) fun _ _ he => Runs.ok ⟨rfl, he.represents hts⟩
  | appendCard b v => exact (appendCard_does v).extend hw hspec
  | appendInt b v => exact (appendInt_does v).extend hw hspec
  | clear b =>
    obtain ⟨bs, hts, hs⟩ := hw
    obtain ⟨t, ht, hspec⟩ := Option.map_eq_some_iff.1 hspec
    obtain ⟨rfl, rfl⟩ := Prod.mk.inj hspec
    obtain ⟨q, hq, rfl⟩ := getElem?_map_text hts ht
    refine Runs.bindS (clear_runs hs hq) ?_
    rintro _ w' ⟨q', htext, hs'⟩
    exact Runs.ok ⟨rfl, bs.set b q', by rw [List.map_set, htext, hts], hs'⟩
  | charAt b i =>
    obtain ⟨bs, hts, hs⟩ := hw
    obtain ⟨t, ht, hspec⟩ := Option.map_eq_some_iff.1 hspec
    obtain ⟨rfl, rfl⟩ := Prod.mk.inj hspec
    obtain ⟨q, hq, rfl⟩ := getElem?_map_text hts ht
    refine (charAt_reads hs hq i).bind fun c hc => Runs.ok ⟨by rw [hc], bs, hts, hs⟩
  | toStr b s =>
    obtain ⟨bs, hts, hs⟩ := hw
    obtain ⟨t, ht, hspec⟩ := Option.map_eq_some_iff.1 hspec
    obtain ⟨rfl, rfl⟩ := Prod.mk.inj hspec
    obtain ⟨q, hq, rfl⟩ := getElem?_map_text hts ht
    refine (toStr_reads hs hq s).bind ?_
    rintro ⟨ok, s'⟩ ⟨hok, hcells⟩
    exact Runs.ok ⟨by rw [show ok = _ from hok, show s'.cells = _ from hcells], bs, hts, hs⟩

theorem run_runs {ops : List Op} {ts ts' : List (List Code)} {os : List Out} (hw : Represents ts w)
    (hspec : specRun maxIdx ts ops = some (ts', os)) :
    Runs allowed (run M ops w) fun r => r.1 = os ∧ Represents ts' r.2 := by
  induction ops generalizing ts os w with
  | nil =>
    obtain ⟨rfl, rfl⟩ := Prod.mk.inj (Option.some_inj.1 hspec)
    exact Runs.ok ⟨rfl, hw⟩
  | cons op ops ih =>
    obtain ⟨⟨ts₁, o⟩, hop, hspec⟩ := Option.bind_eq_some_iff.1 hspec
    obtain ⟨⟨ts₂, os'⟩, hops, hspec⟩ := Option.bind_eq_some_iff.1 hspec
    obtain ⟨rfl, rfl⟩ := Prod.mk.inj (Option.some_inj.1 hspec)
    refine Runs.bindS (exec_runs hw hop) ?_
    rintro o' w' ⟨rfl, hw'⟩
    refine Runs.bindS (ih hw' hops) ?_
    rintro os'' w'' ⟨rfl, hw''⟩
    exact Runs.ok ⟨rfl, hw''⟩

theorem Represents.holds {ts : List (List Code)} (hw : Represents ts w) : Holds ts w := by
  obtain ⟨bs, rfl, hs⟩ := hw
  have hdata : w.bufs.map Rec.data = (bs.map Buffer.block).map (some ∘ Prod.fst) := by
    rw [hs.bufs, List.map_map, List.map_map]
    rfl
  refine ⟨by rw [hs.bufs, List.length_map, List.length_map], ?_, ?_, fun b t ht => ?_⟩
  · rw [hs.heap.length_inUse, List.length_map, List.length_map]
  · rw [hdata, ← List.map_map]
    exact hs.heap.nodup.map (Option.some_injective _)
  · obtain ⟨q, hq, rfl⟩ := getElem?_map_text rfl ht
    obtain ⟨-, cells, hget, hlen, hpre⟩ := hs.heap.holds _ (List.mem_map_of_mem (List.mem_of_getElem? hq))
    refine ⟨q.record, q.addr, cells, ?_, rfl, q.fits, rfl, hget, hlen, hpre⟩
    rw [hs.bufs, List.getElem?_map, hq]
    rfl

theorem represents_start : Represents [] World.start := ⟨[], rfl, rfl, Owns.nil⟩

/-- From the start on, every operation returns what the texts say, and the buffers hold them. -/
theorem run_start {ops : List Op} {ts : List (List Code)} {os : List Out}
    (hspec : specRun maxIdx [] ops = some (ts, os)) : ∃ w, run M ops World.start = .ok (os, w) ∧ Holds ts w := by
  obtain ⟨⟨os', w⟩, hrun, rfl, hw⟩ := (run_runs (M := M) represents_start hspec).succeeds
  exact ⟨w, hrun, hw.holds⟩

/-! ## A text that is too long -/

theorem runs_or_stops {β : Type} (x : Except Stop β) : Runs (fun _ => True) x fun _ => True := by
  cases x with
  | ok a => exact trivial
  | error e => exact trivial

theorem poke_stops {i : Nat} (hi : maxIdx + 1 ≤ i) (d : Address) (c : Code) (w : World) :
    poke d i c w = .error .indexException := by
  rw [poke, onHeap, poke_limit hi]
  rfl

theorem putAll_stops (d : Address) (len : Nat) (cs : List Code) {i : Nat} (hi : i ≤ maxIdx + 1)
    (hlen : maxIdx + 1 < i + cs.length) (w : World) : Runs (fun _ => True) (putAll d len cs i w) fun _ => False := by
  induction cs generalizing i w with
  | nil =>
    rw [List.length_nil] at hlen
    omega
  | cons c cs ih =>
    rw [List.length_cons] at hlen
    rcases Nat.lt_or_eq_of_le hi with hlt | rfl
    · exact Runs.bindS (runs_or_stops _) fun _ w' _ => ih hlt (by omega) w'
    · rw [putAll, bindS_error (poke_stops (Nat.le_add_left _ _) d c w)]
      exact trivial

/-- More characters than there are indices are not appended. -/
theorem append_stops {s : Chars} (hlen : maxIdx + 1 < s.text.length) (b : Nat) (w : World) :
    Runs (fun _ => True) (append M b s w) fun _ => False := by
  have hlength := length_eq s
  rw [append, if_neg (by omega)]
  refine Runs.bindS (runs_or_stops _) fun _ w₁ _ => Runs.bindS (runs_or_stops _) fun _ w₂ _ => ?_
  refine Runs.bindS (runs_or_stops _) fun r w₃ _ => ?_
  exact Runs.bindS (putAll_stops r.data r.len s.text (Nat.zero_le _) (by omega) w₃) fun _ _ hfalse => hfalse.elim

/-- So many letters. -/
def letters (n : Nat) (hpos : 0 < n) (hsmall : n < 2 ^ 63) : Chars :=
  ⟨List.replicate n (code 'a'), by simp; omega, by rwa [List.length_replicate]⟩

theorem text_letters {n : Nat} (hpos : 0 < n) (hsmall : n < 2 ^ 63) :
    (letters n hpos hsmall).text = List.replicate n (code 'a') := by
  rw [text, letters, List.takeWhile_replicate, if_pos (by decide)]

end operations

end NewM2.Winrt.StrBuf
