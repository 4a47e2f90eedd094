import Mathlib
import NewM2.Lib.Chars
import NewM2.Lib.Blocks

/-!
# Growable arrays of cells (`library/winrtmod/Vector.mod`)

The cells of a vector are kept in a block that is doubled when there is no room; an empty one may have no block. The
vectors there are have numbers; `exec` is one operation on them, and `spec` is the same on the lists of cells alone. -/

namespace NewM2.Winrt.Vector
open Handles Blocks

def maxIdx : Nat := 268435455

/-- CARDINAL -/
abbrev Cell := BitVec 64

structure VRec where
  len : Nat
  cap : Nat
  data : Address
deriving DecidableEq

/-- The records of the vectors, and the blocks. -/
structure World where
  vecs : List VRec
  heap : Heap (List Cell)

abbrev Proc (β : Type) := StateT World (Except Stop) β

/-- `v^` -/
def deref (v : Nat) : Proc VRec := fun w =>
  match w.vecs[v]? with
  | some r => .ok (r, w)
  | none => .error .dangling

/-- `v^ := r` -/
def assign (v : Nat) (r : VRec) : Proc Unit := fun w =>
  if v < w.vecs.length then .ok ((), { w with vecs := w.vecs.set v r }) else .error .dangling

/-- A procedure on the blocks. -/
def onHeap {β : Type} (x : Blocks.Proc Cell β) : Proc β := fun w => do
  let (y, h) ← x w.heap
  .ok (y, { w with heap := h })

/-- `d^[i] := x`, where `d` is a PData. -/
def poke (d : Address) (i : Nat) (x : Cell) : Proc Unit := onHeap (Blocks.poke (maxIdx + 1) d i x)

def peek (d : Address) (i : Nat) : Proc Cell := onHeap (Blocks.peek (maxIdx + 1) d i)

/-- The size of a cell, in bytes. -/
def sizeOfCell : Nat := 8

/-- A number of rounds that the loop of `Reserve` does not come to unless it goes on for ever. -/
def rounds : Nat := 65

section procedures
variable (M : Memory Cell)

def reserve (v cap : Nat) : Proc Unit := do
  let r ← deref v
  if cap ≤ r.cap then return ()
  else
    match growTo rounds (if r.cap < 4 then 4 else r.cap) cap with
    | none => fun _ => .error .rounds
    | some nc => do
      let na ← onHeap (allocate M sizeOfCell (wrap (nc * sizeOfCell)))
      if r.data ≠ none then do
        onHeap (copy (maxIdx + 1) na 0 r.data r.len 0)
        onHeap (deallocate r.data)
        assign v { r with data := na, cap := nc }
      else assign v { r with data := na, cap := nc }

/-- The number of a new vector. -/
def create : Proc Nat := fun w => .ok (w.vecs.length, { w with vecs := w.vecs ++ [⟨0, 0, none⟩] })

def createCap (cap : Nat) : Proc Nat := do
  let v ← create
  reserve M v cap
  return v

def push (v : Nat) (x : Cell) : Proc Unit := do
  reserve M v (wrap ((← deref v).len + 1))
  let r ← deref v
  poke r.data r.len x
  assign v { r with len := wrap (r.len + 1) }

/-- `WHILE j > i DO d^[j] := d^[j - 1]; DEC(j) END` -/
def shiftUp (d : Address) (i : Nat) : Nat → Proc Unit
  | 0 => return ()
  | j + 1 =>
    if i < j + 1 then do
      let x ← peek d j
      poke d (j + 1) x
      shiftUp d i j
    else return ()

def insert (v i : Nat) (x : Cell) : Proc Unit := do
  let r ← deref v
  let i := if r.len < i then r.len else i
  reserve M v (wrap (r.len + 1))
  let r ← deref v
  shiftUp r.data i r.len
  poke r.data i x
  assign v { r with len := wrap (r.len + 1) }

end procedures

def pop (v : Nat) : Proc Cell := do
  let r ← deref v
  if r.len = 0 then return 0
  else do
    assign v { r with len := r.len - 1 }
    peek r.data (r.len - 1)

def last (v : Nat) : Proc Cell := do
  let r ← deref v
  if r.len = 0 then return 0 else peek r.data (r.len - 1)

def get (v i : Nat) : Proc Cell := do
  let r ← deref v
  if r.len ≤ i then return 0 else peek r.data i

def set (v i : Nat) (x : Cell) : Proc Unit := do
  let r ← deref v
  if i < r.len then poke r.data i x else return ()

/-- `WHILE j + 1 < v^.len DO d^[j] := d^[j + 1]; INC(j) END`, so many times. -/
def shiftDown (d : Address) : Nat → Nat → Proc Unit
  | 0, _ => return ()
  | m + 1, j => do
    let x ← peek d (j + 1)
    poke d j x
    shiftDown d m (j + 1)

def remove (v i : Nat) : Proc Cell := do
  let r ← deref v
  if r.len ≤ i then return 0
  else do
    let x ← peek r.data i
    shiftDown r.data (r.len - 1 - i) i
    assign v { r with len := r.len - 1 }
    return x

def swap (v i j : Nat) : Proc Unit := do
  let r ← deref v
  if i < r.len ∧ j < r.len then do
    let t ← peek r.data i
    let x ← peek r.data j
    poke r.data i x
    poke r.data j t
  else return ()

def clear (v : Nat) : Proc Unit := do
  let r ← deref v
  assign v { r with len := 0 }

/-! ## Operations -/

inductive Op
  | create
  | createCap (cap : Nat)
  | reserve (v cap : Nat)
  | push (v : Nat) (x : Cell)
  | pop (v : Nat)
  | last (v : Nat)
  | get (v i : Nat)
  | set (v i : Nat) (x : Cell)
  | insert (v i : Nat) (x : Cell)
  | remove (v i : Nat)
  | swap (v i j : Nat)
  | clear (v : Nat)
  | length (v : Nat)

/-- What an operation returns. -/
inductive Out
  | none
  | vector (v : Nat)
  | cell (x : Cell)
  | card (n : Nat)
deriving DecidableEq

def exec (M : Memory Cell) : Op → Proc Out
  | .create => do return .vector (← create)
  | .createCap cap => do return .vector (← createCap M cap)
  | .reserve v cap => do reserve M v cap; return .none
  | .push v x => do push M v x; return .none
  | .pop v => do return .cell (← pop v)
  | .last v => do return .cell (← last v)
  | .get v i => do return .cell (← get v i)
  | .set v i x => do set v i x; return .none
  | .insert v i x => do insert M v i x; return .none
  | .remove v i => do return .cell (← remove v i)
  | .swap v i j => do swap v i j; return .none
  | .clear v => do clear v; return .none
  | .length v => do return .card (← deref v).len

def run (M : Memory Cell) : List Op → Proc (List Out)
  | [] => return []
  | op :: ops => do
    let o ← exec M op
    let os ← run M ops
    return o :: os

section lists
variable (limit maxCap : Nat)

/-- The cells of `v` after an operation that makes nothing longer. -/
def change (ls : List (List Cell)) (v : Nat) (f : List Cell → List Cell) (o : List Cell → Out) :
    Option (List (List Cell) × Out) :=
  ls[v]?.map fun l => (ls.set v (f l), o l)

/-- The cells of `v` after an operation that adds one; a vector has at most `limit` cells. -/
def extend (ls : List (List Cell)) (v : Nat) (f : List Cell → List Cell) : Option (List (List Cell) × Out) :=
  match ls[v]? with
  | none => none
  | some l => if l.length < limit then some (ls.set v (f l), .none) else none

def swapCells (l : List Cell) (i j : Nat) : List Cell :=
  if i < l.length ∧ j < l.length then (l.set i (l.getD j 0)).set j (l.getD i 0) else l

/-- The same operation on lists; `none` if there is no such vector, if it becomes too long, or if a capacity above
`maxCap` is requested. -/
def spec (ls : List (List Cell)) : Op → Option (List (List Cell) × Out)
  | .create => some (ls ++ [[]], .vector ls.length)
  | .createCap cap => if cap ≤ maxCap then some (ls ++ [[]], .vector ls.length) else none
  | .reserve v cap => if cap ≤ maxCap then change ls v id fun _ => .none else none
  | .push v x => extend limit ls v fun l => l ++ [x]
  | .pop v => change ls v List.dropLast fun l => .cell (l.getLastD 0)
  | .last v => change ls v id fun l => .cell (l.getLastD 0)
  | .get v i => change ls v id fun l => .cell (l.getD i 0)
  | .set v i x => change ls v (fun l => l.set i x) fun _ => .none
  | .insert v i x => extend limit ls v fun l => l.insertIdx (min i l.length) x
  | .remove v i => change ls v (fun l => l.eraseIdx i) fun l => .cell (l.getD i 0)
  | .swap v i j => change ls v (fun l => swapCells l i j) fun _ => .none
  | .clear v => change ls v (fun _ => []) fun _ => .none
  | .length v => change ls v id fun l => .card l.length

def specRun (ls : List (List Cell)) : List Op → Option (List (List Cell) × List Out)
  | [] => some (ls, [])
  | op :: ops => do
    let (ls, o) ← spec limit maxCap ls op
    let (ls, os) ← specRun ls ops
    return (ls, o :: os)

end lists

/-- No vectors. -/
def World.start : World := ⟨[], []⟩

/-- The vectors hold the lists, in blocks of their own, and there are no other blocks. -/
structure Holds (ls : List (List Cell)) (w : World) : Prop where
  count : w.vecs.length = ls.length
  nodup : (w.vecs.filterMap VRec.data).Nodup
  blocks : (w.vecs.filterMap VRec.data).Perm (inUse w.heap)
  cells : ∀ (v : Nat) (l : List Cell), ls[v]? = some l → ∃ r : VRec, w.vecs[v]? = some r ∧ r.len = l.length ∧
    r.len ≤ r.cap ∧ (r.data = none → r.cap = 0) ∧ ∀ c, r.data = some c →
      ∃ cells, w.heap[c]? = some (some cells) ∧ cells.length = r.cap ∧ l <+: cells

/-! ## Sound worlds -/

/-- A vector with its block, if it has one. -/
structure Vec where
  data : Address
  cap : Nat
  cells : List Cell
  fits : cells.length ≤ cap
  small : cells.length ≤ maxIdx + 1
  pow : data = none ∧ cap = 0 ∨ data ≠ none ∧ ∃ j, 2 ≤ j ∧ j ≤ 58 ∧ cap = 2 ^ j

namespace Vec

def record (q : Vec) : VRec := ⟨q.cells.length, q.cap, q.data⟩

def block (q : Vec) : Option (Handle × (Nat × List Cell)) := q.data.map fun c => (c, (q.cap, q.cells))

theorem addr_of_pos {q : Vec} (h : 0 < q.cap) : ∃ c, q.data = some c := by
  rcases q.pow with ⟨-, hcap⟩ | ⟨hdata, -⟩
  · omega
  · exact Option.ne_none_iff_exists'.1 hdata

end Vec

structure Sound (vs : List Vec) (w : World) : Prop where
  vecs : w.vecs = vs.map Vec.record
  heap : Owns IsBlock [] w.heap (vs.filterMap Vec.block)

/-- The blocks of the other vectors. -/
def rest (vs : List Vec) (v : Nat) : List (Handle × (Nat × List Cell)) := (vs.eraseIdx v).filterMap Vec.block

/-- The block of the vector `v`, which is `q` in `vs`, is at `c` and begins with `p`. -/
structure Opened (vs : List Vec) (v : Nat) (q : Vec) (c : Handle) (p : List Cell) (w : World) : Prop where
  vector : vs[v]? = some q
  data : q.data = some c
  vecs : w.vecs = vs.map Vec.record
  heap : Owns IsBlock [] w.heap ((c, (q.cap, p)) :: rest vs v)

/-- The cells of `v` are `l`, and the other vectors are as they were. -/
def Becomes (vs : List Vec) (v : Nat) (l : List Cell) (w : World) : Prop :=
  ∃ q : Vec, q.cells = l ∧ Sound (vs.set v q) w

section sound
variable {vs : List Vec} {w : World} {v i : Nat} {q q' : Vec} {c : Handle} {p l : List Cell} {r : VRec} {x : Cell}
  {allowed : Stop → Prop}

theorem perm_block (h : vs[v]? = some q) : (vs.filterMap Vec.block).Perm (q.block.toList ++ rest vs v) := by
  obtain ⟨hlt, hget⟩ := List.getElem?_eq_some_iff.1 h
  have hperm := ((List.getElem_cons_eraseIdx_perm hlt).filterMap Vec.block).symm
  rw [hget, List.filterMap_cons] at hperm
  rcases hblock : q.block with _ | z
  · rwa [hblock] at hperm
  · rwa [hblock] at hperm

theorem rest_set (vs : List Vec) (v : Nat) (q : Vec) : rest (vs.set v q) v = rest vs v := by
  rw [rest, List.eraseIdx_set_eq, rest]

theorem getElem?_set (h : vs[v]? = some q) (q' : Vec) : (vs.set v q')[v]? = some q' :=
  List.getElem?_set_self (List.getElem?_eq_some_iff.1 h).1

theorem set_self {β : Type} {bs : List β} {b : β} (h : bs[v]? = some b) : bs.set v b = bs := by
  obtain ⟨hlt, hget⟩ := List.getElem?_eq_some_iff.1 h
  rw [← hget, List.set_getElem_self]

theorem Sound.rest_of_none (hs : Sound vs w) (h : vs[v]? = some q) (hdata : q.data = none) :
    Owns IsBlock [] w.heap (rest vs v) := by
  have hperm := perm_block h
  rw [Vec.block, hdata] at hperm
  exact hs.heap.perm hperm

theorem Sound.opened (hs : Sound vs w) (h : vs[v]? = some q) (hdata : q.data = some c) :
    Opened vs v q c q.cells w := by
  have hperm := perm_block h
  rw [Vec.block, hdata] at hperm
  exact ⟨h, hdata, hs.vecs, hs.heap.perm hperm⟩

/-- A vector with other cells in its block, or with another block. -/
theorem sound_set (h : vs[v]? = some q) (hvecs : w.vecs = (vs.map Vec.record).set v q'.record)
    (hdata : q'.data = some c) (hheap : Owns IsBlock [] w.heap ((c, (q'.cap, q'.cells)) :: rest vs v)) :
    Sound (vs.set v q') w := by
  have hperm := (perm_block (getElem?_set h q')).symm
  rw [rest_set, Vec.block, hdata] at hperm
  exact ⟨by rw [hvecs, List.map_set], hheap.perm hperm⟩

theorem deref_reads (h : w.vecs[v]? = some r) : Reads allowed (deref v) w (· = r) := by
  rw [Reads, deref, h]
  exact Runs.ok ⟨rfl, rfl⟩

theorem Sound.deref_reads (hs : Sound vs w) (h : vs[v]? = some q) : Reads allowed (deref v) w (· = q.record) :=
  Vector.deref_reads (by rw [hs.vecs, List.getElem?_map, h]; rfl)

theorem assign_runs (hv : v < w.vecs.length) (r : VRec) :
    Runs allowed (assign v r w) fun y => y.2.vecs = w.vecs.set v r ∧ y.2.heap = w.heap := by
  rw [assign, if_pos hv]
  exact Runs.ok ⟨rfl, rfl⟩

theorem onHeap_runs {β : Type} {f : Blocks.Proc Cell β} {Q : β × Heap (List Cell) → Prop}
    (h : Runs allowed (f w.heap) Q) :
    Runs allowed (onHeap f w) fun y => Q (y.1, y.2.heap) ∧ y.2.vecs = w.vecs :=
  h.bind fun _ ha => Runs.ok ⟨ha, rfl⟩

theorem Opened.lt (ho : Opened vs v q c p w) : v < w.vecs.length := by
  rw [ho.vecs, List.length_map]
  exact (List.getElem?_eq_some_iff.1 ho.vector).1

theorem Opened.poke_runs (ho : Opened vs v q c p w) (hi : i < q.cap) (hp : i ≤ p.length) (hlimit : i < maxIdx + 1)
    (x : Cell) :
    Runs allowed (poke (some c) i x w) fun r => Opened vs v q c (p.take i ++ x :: p.drop (i + 1)) r.2 :=
  (onHeap_runs (Blocks.poke_runs ho.heap hlimit hi hp x)).mono fun _ hr =>
    ⟨ho.vector, ho.data, hr.2.trans ho.vecs, hr.1⟩

theorem Opened.peek_reads (ho : Opened vs v q c p w) (hi : i < p.length) (hlimit : i < maxIdx + 1) :
    Reads allowed (peek (some c) i) w fun x => p[i]? = some x := by
  refine (onHeap_runs (Blocks.peek_reads ho.heap (List.mem_cons_self ..) hi hlimit)).mono ?_
  rintro ⟨x, w'⟩ ⟨⟨hx, hheap⟩, hvecs⟩
  refine ⟨hx, ?_⟩
  obtain ⟨vecs, heap⟩ := w
  obtain ⟨vecs', heap'⟩ := w'
  rw [show vecs' = vecs from hvecs, show heap' = heap from hheap]

/-- The new length: the cells are the first ones of what is known. -/
theorem Opened.finish_runs (ho : Opened vs v q c p w) (hl : l <+: p) (hfits : l.length ≤ q.cap)
    (hsmall : l.length ≤ maxIdx + 1) {n : Nat} (hn : n = l.length) :
    Runs allowed (assign v ⟨n, q.cap, some c⟩ w) fun r => Becomes vs v l r.2 := by
  subst hn
  let q' : Vec := ⟨q.data, q.cap, l, hfits, hsmall, q.pow⟩
  refine (assign_runs ho.lt _).mono fun r hr => ⟨q', rfl, ?_⟩
  refine sound_set ho.vector ?_ ho.data ?_
  · rw [hr.1, ho.vecs, ← ho.data]
    rfl
  · rw [hr.2]
    exact Blocks.weaken ho.heap hl

/-- Other cells, as many as before. -/
theorem Opened.becomes (ho : Opened vs v q c p w) (hlen : p.length = q.cells.length) : Becomes vs v p w := by
  let q' : Vec := ⟨q.data, q.cap, p, hlen ▸ q.fits, hlen ▸ q.small, q.pow⟩
  have hrecord : q'.record = q.record := congrArg (fun n => VRec.mk n q.cap q.data) hlen
  refine ⟨q', rfl, sound_set ho.vector ?_ ho.data ho.heap⟩
  rw [hrecord, ho.vecs]
  exact (set_self (by rw [List.getElem?_map, ho.vector]; rfl)).symm

theorem Becomes.refl (hs : Sound vs w) (h : vs[v]? = some q) : Becomes vs v q.cells w :=
  ⟨q, rfl, by rwa [set_self h]⟩

/-- What is done to a vector whose block has just been made larger. -/
theorem Becomes.of_set (h : Becomes (vs.set v q) v l w) : Becomes vs v l w := by
  obtain ⟨q', hl, hs⟩ := h
  exact ⟨q', hl, by rwa [List.set_set] at hs⟩

end sound

/-! ## Each operation -/

section operations
variable {M : Memory Cell} {vs : List Vec} {w : World} {v i j : Nat} {q : Vec} {c : Handle} {p l : List Cell}
  {cap : Nat} {x : Cell} {allowed : Stop → Prop}

/-- The doubling comes to an end for every capacity up to 2⁶³. -/
theorem growTo_start {n : Nat} (hn : n ≤ 63) (hn' : 2 ≤ n) (hcap : cap ≤ 2 ^ n) (hj : q.cap = 0 ∨ ∃ j, 2 ≤ j ∧ j ≤ n ∧ q.cap = 2 ^ j) :
    ∃ j, growTo rounds (if q.cap < 4 then 4 else q.cap) cap = some (2 ^ j) ∧ cap ≤ 2 ^ j ∧ q.cap ≤ 2 ^ j ∧
      2 ≤ j ∧ j ≤ n := by
  rcases hj with hzero | ⟨k, hk, hkn, hpow⟩
  · obtain ⟨j, hgrow, hle, hj, hj'⟩ := @growTo_pow rounds 2 n cap hn' hn hcap (by rw [rounds]; omega)
    rw [hzero, if_pos (by decide)]
    exact ⟨j, hgrow, hle, Nat.zero_le _, hj, hj'⟩
  · obtain ⟨j, hgrow, hle, hj, hj'⟩ := @growTo_pow rounds k n cap hkn hn hcap (by rw [rounds]; omega)
    have h4 : 2 ^ 2 ≤ 2 ^ k := Nat.pow_le_pow_right (by decide) hk
    rw [hpow, if_neg (by omega)]
    exact ⟨j, hgrow, hle, Nat.pow_le_pow_right (by decide) hj, hk.trans hj, hj'⟩

/-- There is room afterwards, in the old block or in a new one. -/
theorem reserve_runs (hs : Sound vs w) (h : vs[v]? = some q) (hcap : cap ≤ 2 ^ 58) :
    Runs allowed (reserve M v cap w) fun r => ∃ q' : Vec, q'.cells = q.cells ∧ cap ≤ q'.cap ∧ Sound (vs.set v q') r.2 := by
  rw [reserve]
  refine (hs.deref_reads h).bind fun r hr => ?_
  rw [hr]
  by_cases hroom : cap ≤ q.cap
  · rw [if_pos (show cap ≤ q.record.cap from hroom)]
    exact Runs.ok ⟨q, rfl, hroom, by rwa [set_self h]⟩
  rw [if_neg (show ¬ cap ≤ q.record.cap from hroom)]
  have hstart : q.cap = 0 ∨ ∃ j, 2 ≤ j ∧ j ≤ 58 ∧ q.cap = 2 ^ j := by
    rcases q.pow with ⟨-, hzero⟩ | ⟨-, hpow⟩
    · exact .inl hzero
    · exact .inr hpow
  obtain ⟨j, hgrow, hle, hmono, hj, hj'⟩ := growTo_start (by decide) (by decide) hcap hstart
  rw [show q.record.cap = q.cap from rfl, hgrow]
  have hpow : 2 ^ j ≤ 2 ^ 58 := Nat.pow_le_pow_right (by decide) hj'
  have hpos : 0 < 2 ^ j := Nat.pow_pos (by decide)
  have hsize : wrap (2 ^ j * sizeOfCell) = 2 ^ j * 8 := wrap_of_lt (by rw [sizeOfCell]; omega)
  have hfits := q.fits
  have hsmall := q.small
  have hlt : v < w.vecs.length := by
    rw [hs.vecs, List.length_map]
    exact (List.getElem?_eq_some_iff.1 h).1
  dsimp only
  rw [hsize]
  rcases hdata : q.data with _ | c₀
  · -- the first block of the vector
    have hrest := hs.rest_of_none h hdata
    refine Runs.bindS (onHeap_runs (allocate_runs M (by omega) (by omega) hrest)) ?_
    rintro na w₁ ⟨⟨c, hna, hown⟩, hvecs⟩
    obtain rfl : na = some c := hna
    rw [if_neg (show ¬ q.record.data ≠ none from not_not.2 hdata)]
    rw [sizeOfCell, Nat.mul_div_cancel _ (by decide)] at hown
    have hempty : q.cells = [] := by
      rcases q.pow with ⟨-, hzero⟩ | ⟨hsome, -⟩
      · exact List.eq_nil_of_length_eq_zero (by omega)
      · exact absurd hdata hsome
    let q' : Vec := ⟨some c, 2 ^ j, q.cells, by omega, hsmall, .inr ⟨Option.some_ne_none _, j, hj, hj', rfl⟩⟩
    refine (assign_runs (hvecs ▸ hlt) q'.record).mono fun r hr => ⟨q', rfl, hle, ?_⟩
    refine sound_set h ?_ rfl ?_
    · rw [hr.1, hvecs, hs.vecs]
    · rw [hr.2, show q'.cells = [] from hempty]
      exact hown
  · -- the cells move to a larger block
    have ho := hs.opened h hdata
    refine Runs.bindS (onHeap_runs (allocate_runs M (by omega) (by omega) ho.heap)) ?_
    rintro na w₁ ⟨⟨c, hna, hown₁⟩, hvecs₁⟩
    obtain rfl : na = some c := hna
    rw [if_pos (show q.record.data ≠ none by rw [Vec.record, hdata]; exact Option.some_ne_none _)]
    rw [sizeOfCell, Nat.mul_div_cancel _ (by decide)] at hown₁
    have hread : ∀ i h, i < q.cells.length →
        Owns IsBlock [] h ((c, (2 ^ j, [] ++ q.cells.take i)) :: (c₀, (q.cap, q.cells)) :: rest vs v) →
        Reads allowed (Blocks.peek (maxIdx + 1) q.record.data i) h fun x => q.cells[i]? = some x := by
      intro i h hi hown
      rw [show q.record.data = some c₀ from hdata]
      exact peek_reads hown (List.mem_cons_of_mem _ (List.mem_cons_self ..)) hi (by omega)
    have hnil : 0 = ([] : List Cell).length := rfl
    rw [show q.record.len = q.cells.length from rfl]
    refine Runs.bindS (onHeap_runs (copyAll_runs hnil hread ?_ ?_ hown₁)) ?_
    · rw [List.length_nil]
      omega
    · rw [List.length_nil]
      omega
    rintro _ w₂ ⟨hown₂, hvecs₂⟩
    rw [show q.record.data = some c₀ from hdata]
    refine Runs.bindS (onHeap_runs (deallocate_runs hown₂.second)) ?_
    rintro _ w₃ ⟨hown₃, hvecs₃⟩
    have hw₃ : w₃.vecs = w.vecs := hvecs₃.trans (hvecs₂.trans hvecs₁)
    let q' : Vec := ⟨some c, 2 ^ j, q.cells, by omega, hsmall, .inr ⟨Option.some_ne_none _, j, hj, hj', rfl⟩⟩
    refine (assign_runs (hw₃ ▸ hlt) q'.record).mono fun r hr => ⟨q', rfl, hle, ?_⟩
    refine sound_set h ?_ rfl ?_
    · rw [hr.1, hw₃, hs.vecs]
    · rw [hr.2]
      exact hown₃

/-- A vector that has room for one more cell. -/
theorem grow_runs (hs : Sound vs w) (h : vs[v]? = some q) (hlen : q.cells.length < maxIdx + 1) :
    Runs allowed (reserve M v (wrap (q.cells.length + 1)) w) fun r => ∃ (q' : Vec) (c : Handle),
      q'.cells = q.cells ∧ q.cells.length < q'.cap ∧ Opened (vs.set v q') v q' c q.cells r.2 := by
  have hmax : maxIdx + 1 = 2 ^ 28 := rfl
  rw [wrap_of_lt (by omega)]
  refine (reserve_runs hs h (by omega)).mono ?_
  rintro ⟨_, w'⟩ ⟨q', hcells, hcap, hs'⟩
  obtain ⟨c, hdata⟩ := Vec.addr_of_pos (q := q') (by omega)
  exact ⟨q', c, hcells, hcap, hcells ▸ hs'.opened (getElem?_set h q') hdata⟩

theorem create_runs (hs : Sound vs w) :
    Runs allowed (create w) fun r => r.1 = vs.length ∧ ∃ q : Vec, q.cells = [] ∧ Sound (vs ++ [q]) r.2 := by
  let q : Vec := ⟨none, 0, [], le_rfl, Nat.zero_le _, .inl ⟨rfl, rfl⟩⟩
  refine Runs.ok ⟨by rw [hs.vecs, List.length_map], q, rfl, ?_, ?_⟩
  · rw [hs.vecs, List.map_append]
    rfl
  · rw [List.filterMap_append]
    exact (List.append_nil (vs.filterMap Vec.block)).symm ▸ hs.heap

theorem createCap_runs (hs : Sound vs w) (hcap : cap ≤ 2 ^ 58) :
    Runs allowed (createCap M cap w) fun r => r.1 = vs.length ∧ ∃ q : Vec, q.cells = [] ∧ Sound (vs ++ [q]) r.2 := by
  refine Runs.bindS (create_runs hs) ?_
  rintro v w₁ ⟨rfl, q, hcells, hs₁⟩
  refine Runs.bindS (reserve_runs hs₁ List.getElem?_concat_length hcap) ?_
  rintro _ w₂ ⟨q', hcells', -, hs₂⟩
  rw [List.set_append_right _ _ le_rfl, Nat.sub_self, List.set_cons_zero] at hs₂
  exact Runs.ok ⟨rfl, q', hcells'.trans hcells, hs₂⟩

theorem push_runs (hs : Sound vs w) (h : vs[v]? = some q) (hlen : q.cells.length < maxIdx + 1) (x : Cell) :
    Runs allowed (push M v x w) fun r => Becomes vs v (q.cells ++ [x]) r.2 := by
  refine (hs.deref_reads h).bind fun r hr => ?_
  rw [hr]
  refine Runs.bindS (grow_runs hs h hlen) ?_
  rintro _ w₁ ⟨q₁, c, hcells, hcap, ho⟩
  have hread : Reads allowed (deref v) w₁ (· = q₁.record) := Vector.deref_reads (by
    rw [ho.vecs, List.getElem?_map, ho.vector]
    rfl)
  refine hread.bind fun r hr => ?_
  rw [hr, show q₁.record.data = some c from ho.data, show q₁.record.len = q.cells.length from congrArg _ hcells]
  refine Runs.bindS (ho.poke_runs hcap le_rfl hlen x) ?_
  intro _ w₂ ho₂
  rw [List.take_length, List.drop_of_length_le (Nat.le_succ _)] at ho₂
  have hmax : maxIdx + 1 = 2 ^ 28 := rfl
  have hone : (q.cells ++ [x]).length = q.cells.length + 1 := List.length_append
  have hnew : wrap (q.cells.length + 1) = (q.cells ++ [x]).length := by rw [hone, wrap_of_lt (by omega)]
  have hfinish : Runs allowed (assign v ⟨_, q₁.cap, some c⟩ w₂) _ :=
    ho₂.finish_runs List.prefix_rfl (by omega) (by omega) hnew
  exact hfinish.mono fun _ hr => hr.of_set

/-- The cells from `i` on are moved up; `j` is the place that gets free. -/
theorem shiftUp_runs (hi : i ≤ j) (hj : j ≤ l.length) (hroom : l.length < q.cap) (hlimit : l.length < maxIdx + 1)
    (ho : Opened vs v q c (l.take (j + 1) ++ l.drop j) w) :
    Runs allowed (shiftUp (some c) i j w) fun r => Opened vs v q c (l.take (i + 1) ++ l.drop i) r.2 := by
  induction j generalizing w with
  | zero =>
    obtain rfl : i = 0 := Nat.le_zero.1 hi
    exact Runs.ok ho
  | succ j ih =>
    rw [shiftUp]
    by_cases hlt : i < j + 1
    · rw [if_pos hlt]
      have hjl : j < l.length := hj
      have hlen : (l.take (j + 1 + 1) ++ l.drop (j + 1)).length = min (j + 2) l.length + (l.length - (j + 1)) := by
        rw [List.length_append, List.length_take, List.length_drop]
      refine (ho.peek_reads (i := j) (by omega) (by omega)).bind fun x hx => ?_
      have hget : l[j]? = some x := by
        rwa [List.getElem?_append_left (by rw [List.length_take]; omega), List.getElem?_take_of_lt (by omega)] at hx
      have hfront : (l.take (j + 1 + 1) ++ l.drop (j + 1)).take (j + 1) = l.take (j + 1) := by
        rw [List.take_append_of_le_length (by rw [List.length_take]; omega), List.take_take, min_eq_left (by omega)]
      have hback : (l.take (j + 1 + 1) ++ l.drop (j + 1)).drop (j + 1 + 1) = l.drop (j + 1) := by
        rcases Nat.lt_or_eq_of_le hj with hlt' | heq
        · have htwo : (l.take (j + 1 + 1)).length = j + 1 + 1 := by
            rw [List.length_take]
            omega
          rw [List.drop_append_of_le_length htwo.ge, List.drop_of_length_le htwo.le, List.nil_append]
        · rw [List.drop_of_length_le (by omega), List.drop_of_length_le (by omega)]
      refine Runs.bindS (ho.poke_runs (i := j + 1) (by omega) (by omega) (by omega) x) fun _ w' ho' => ?_
      rw [hfront, hback] at ho'
      refine ih (Nat.lt_succ_iff.1 hlt) hjl.le ?_
      rwa [List.drop_eq_getElem_cons hjl, (List.getElem?_eq_some_iff.1 hget).2]
    · rw [if_neg hlt]
      obtain rfl : i = j + 1 := by omega
      exact Runs.ok ho

theorem insertIdx_eq (hi : i ≤ l.length) (x : Cell) : l.insertIdx i x = l.take i ++ x :: l.drop i := by
  induction i generalizing l with
  | zero => simp
  | succ i ih =>
    rcases l with _ | ⟨y, l⟩
    · exact absurd hi (Nat.not_succ_le_zero i)
    · rw [List.insertIdx_succ_cons, ih (Nat.succ_le_succ_iff.1 hi)]
      rfl

theorem insert_runs (hs : Sound vs w) (h : vs[v]? = some q) (hlen : q.cells.length < maxIdx + 1) (i : Nat) (x : Cell) :
    Runs allowed (insert M v i x w) fun r => Becomes vs v (q.cells.insertIdx (min i q.cells.length) x) r.2 := by
  refine (hs.deref_reads h).bind fun r hr => ?_
  rw [hr]
  have hmin : (if q.record.len < i then q.record.len else i) = min i q.cells.length := by
    change (if q.cells.length < i then q.cells.length else i) = _
    split_ifs <;> omega
  rw [hmin]
  have hk : min i q.cells.length ≤ q.cells.length := min_le_right _ _
  generalize min i q.cells.length = k at hk ⊢
  refine Runs.bindS (grow_runs hs h hlen) ?_
  rintro _ w₁ ⟨q₁, c, hcells, hcap, ho⟩
  have hread : Reads allowed (deref v) w₁ (· = q₁.record) := Vector.deref_reads (by
    rw [ho.vecs, List.getElem?_map, ho.vector]
    rfl)
  refine hread.bind fun r hr => ?_
  rw [hr, show q₁.record.data = some c from ho.data, show q₁.record.len = q.cells.length from congrArg _ hcells]
  have hfull : q.cells.take (q.cells.length + 1) ++ q.cells.drop q.cells.length = q.cells := by
    rw [List.take_of_length_le (Nat.le_succ _), List.drop_length, List.append_nil]
  refine Runs.bindS (shiftUp_runs hk le_rfl hcap hlen (hfull.symm ▸ ho)) fun _ w₂ ho₂ => ?_
  refine Runs.bindS (ho₂.poke_runs (i := k) (by omega) ?_ (by omega) x) fun _ w₃ ho₃ => ?_
  · rw [List.length_append, List.length_take, List.length_drop]
    omega
  have hinsert : (q.cells.take (k + 1) ++ q.cells.drop k).take k ++ x :: (q.cells.take (k + 1) ++ q.cells.drop k).drop (k + 1) =
      q.cells.insertIdx k x := by
    have htake : (q.cells.take (k + 1) ++ q.cells.drop k).take k = q.cells.take k := by
      rw [List.take_append_of_le_length (by rw [List.length_take]; omega), List.take_take, min_eq_left (Nat.le_succ k)]
    have hdrop : (q.cells.take (k + 1) ++ q.cells.drop k).drop (k + 1) = q.cells.drop k := by
      rcases Nat.lt_or_eq_of_le hk with hlt | heq
      · have htwo : (q.cells.take (k + 1)).length = k + 1 := by
          rw [List.length_take]
          omega
        rw [List.drop_append_of_le_length htwo.ge, List.drop_of_length_le htwo.le, List.nil_append]
      · rw [heq, hfull, List.drop_of_length_le (Nat.le_succ _), List.drop_length]
    rw [htake, hdrop, insertIdx_eq hk]
  rw [hinsert] at ho₃
  have hmax : maxIdx + 1 = 2 ^ 28 := rfl
  have hone : (q.cells.insertIdx k x).length = q.cells.length + 1 := List.length_insertIdx_of_le_length hk x
  have hnew : wrap (q.cells.length + 1) = (q.cells.insertIdx k x).length := by rw [hone, wrap_of_lt (by omega)]
  have hfinish : Runs allowed (assign v ⟨_, q₁.cap, some c⟩ w₃) _ :=
    ho₃.finish_runs List.prefix_rfl (by omega) (by omega) hnew
  exact hfinish.mono fun _ hr => hr.of_set

/-- The world is as it was; what is read is known. -/
theorem Sound.peek_reads (hs : Sound vs w) (h : vs[v]? = some q) (hi : i < q.cells.length) :
    Reads allowed (peek q.data i) w fun x => x = q.cells.getD i 0 := by
  have hfits := q.fits
  have hsmall := q.small
  obtain ⟨c, hdata⟩ := Vec.addr_of_pos (q := q) (by omega)
  rw [hdata]
  refine ((hs.opened h hdata).peek_reads hi (by omega)).mono fun r hr => ⟨?_, hr.2⟩
  rw [List.getD_eq_getElem?_getD, hr.1]
  rfl

theorem getLastD_eq (l : List Cell) : l.getLastD 0 = if l.length = 0 then 0 else l.getD (l.length - 1) 0 := by
  rcases List.eq_nil_or_concat l with rfl | ⟨l, x, rfl⟩
  · rfl
  · simp

theorem get_reads (hs : Sound vs w) (h : vs[v]? = some q) (i : Nat) :
    Reads allowed (get v i) w (· = q.cells.getD i 0) := by
  refine (hs.deref_reads h).bind fun r hr => ?_
  rw [hr]
  by_cases hi : q.record.len ≤ i
  · rw [if_pos hi]
    exact Runs.ok ⟨by rw [List.getD_eq_default _ _ hi], rfl⟩
  · rw [if_neg hi]
    exact hs.peek_reads h (not_le.1 hi)

theorem last_reads (hs : Sound vs w) (h : vs[v]? = some q) : Reads allowed (last v) w (· = q.cells.getLastD 0) := by
  refine (hs.deref_reads h).bind fun r hr => ?_
  rw [hr, getLastD_eq]
  by_cases hzero : q.record.len = 0
  · rw [if_pos hzero, if_pos (show q.cells.length = 0 from hzero)]
    exact Runs.ok ⟨rfl, rfl⟩
  · rw [if_neg hzero, if_neg (show ¬ q.cells.length = 0 from hzero)]
    exact hs.peek_reads h (Nat.sub_lt (Nat.pos_of_ne_zero hzero) Nat.one_pos)

/-- A vector gets shorter. -/
theorem shorten_runs (hs : Sound vs w) (h : vs[v]? = some q) (hl : l <+: q.cells) {n : Nat} (hn : n = l.length) :
    Runs allowed (assign v { q.record with len := n } w) fun r => Becomes vs v l r.2 := by
  have hfits := hl.length_le.trans q.fits
  have hsmall := hl.length_le.trans q.small
  rcases hdata : q.data with _ | c
  · subst hn
    let q' : Vec := ⟨q.data, q.cap, l, hfits, hsmall, q.pow⟩
    have hlt : v < w.vecs.length := by
      rw [hs.vecs, List.length_map]
      exact (List.getElem?_eq_some_iff.1 h).1
    refine (assign_runs hlt _).mono fun r hr => ⟨q', rfl, ?_, ?_⟩
    · rw [hr.1, hs.vecs, List.map_set]
      rfl
    · rw [hr.2]
      have hperm := perm_block (getElem?_set h q')
      rw [rest_set, Vec.block, hdata] at hperm
      exact (hs.rest_of_none h hdata).perm hperm.symm
  · rw [Vec.record, hdata]
    exact (hs.opened h hdata).finish_runs hl hfits hsmall hn

theorem clear_runs (hs : Sound vs w) (h : vs[v]? = some q) :
    Runs allowed (clear v w) fun r => Becomes vs v [] r.2 := by
  refine (hs.deref_reads h).bind fun r hr => ?_
  rw [hr]
  exact shorten_runs hs h List.nil_prefix rfl

theorem pop_runs (hs : Sound vs w) (h : vs[v]? = some q) :
    Runs allowed (pop v w) fun r => r.1 = q.cells.getLastD 0 ∧ Becomes vs v q.cells.dropLast r.2 := by
  refine (hs.deref_reads h).bind fun r hr => ?_
  rw [hr]
  by_cases hzero : q.record.len = 0
  · rw [if_pos hzero]
    have hempty : q.cells = [] := List.eq_nil_of_length_eq_zero hzero
    refine Runs.ok ⟨by rw [hempty]; rfl, ?_⟩
    have hrefl := Becomes.refl hs h
    rw [hempty] at hrefl ⊢
    exact hrefl
  · rw [if_neg hzero]
    have hpos : 0 < q.cells.length := Nat.pos_of_ne_zero hzero
    have hfits := q.fits
    have hsmall := q.small
    obtain ⟨c, hdata⟩ := Vec.addr_of_pos (q := q) (by omega)
    refine Runs.bindS (assign_runs (hs.opened h hdata).lt _) ?_
    rintro _ w₁ ⟨hvecs, hheap⟩
    rw [show q.record.data = some c from hdata, show q.record.len = q.cells.length from rfl]
    have hown : Owns IsBlock [] w₁.heap ((c, (q.cap, q.cells)) :: rest vs v) := hheap ▸ (hs.opened h hdata).heap
    have hlast : q.cells.length - 1 < q.cells.length := Nat.sub_lt hpos Nat.one_pos
    refine (onHeap_runs (peek_reads hown (List.mem_cons_self ..) hlast (by omega))).mono ?_
    rintro ⟨x, w₂⟩ ⟨⟨hx, hheap₂⟩, hvecs₂⟩
    refine ⟨?_, ⟨q.data, q.cap, q.cells.dropLast, (List.dropLast_prefix _).length_le.trans hfits,
      (List.dropLast_prefix _).length_le.trans hsmall, q.pow⟩, rfl, sound_set h ?_ hdata ?_⟩
    · rw [getLastD_eq, if_neg hpos.ne', List.getD_eq_getElem?_getD, hx]
      rfl
    · rw [show w₂.vecs = w₁.vecs from hvecs₂, hvecs, hs.vecs]
      simp only [Vec.record, List.length_dropLast]
    · rw [show w₂.heap = w₁.heap from hheap₂]
      exact Blocks.weaken hown (List.dropLast_prefix _)

theorem set_runs (hs : Sound vs w) (h : vs[v]? = some q) (i : Nat) (x : Cell) :
    Runs allowed (set v i x w) fun r => Becomes vs v (q.cells.set i x) r.2 := by
  refine (hs.deref_reads h).bind fun r hr => ?_
  rw [hr]
  by_cases hi : i < q.record.len
  · rw [if_pos hi]
    have hi' : i < q.cells.length := hi
    have hfits := q.fits
    have hsmall := q.small
    obtain ⟨c, hdata⟩ := Vec.addr_of_pos (q := q) (by omega)
    rw [show q.record.data = some c from hdata]
    refine ((hs.opened h hdata).poke_runs (by omega) hi'.le (by omega) x).mono fun r ho => ?_
    rw [← List.set_eq_take_cons_drop x hi'] at ho
    exact ho.becomes List.length_set
  · rw [if_neg hi, List.set_eq_of_length_le (not_lt.1 hi)]
    exact Runs.ok (Becomes.refl hs h)

/-- The cells behind `j` are moved down. -/
theorem shiftDown_runs (m : Nat) (hij : i ≤ j) (hm : j + m + 1 = l.length) (hcap : l.length ≤ q.cap)
    (hlimit : l.length ≤ maxIdx + 1) (ho : Opened vs v q c ((l.eraseIdx i).take j ++ l.drop j) w) :
    Runs allowed (shiftDown (some c) m j w) fun r =>
      Opened vs v q c ((l.eraseIdx i).take (j + m) ++ l.drop (j + m)) r.2 := by
  induction m generalizing j w with
  | zero => exact Runs.ok ho
  | succ m ih =>
    have herase : (l.eraseIdx i).length = l.length - 1 := List.length_eraseIdx_of_lt (by omega)
    have htake : ((l.eraseIdx i).take j).length = j := by
      rw [List.length_take, herase]
      omega
    have hall : ((l.eraseIdx i).take j ++ l.drop j).length = l.length := by
      rw [List.length_append, htake, List.length_drop]
      omega
    refine (ho.peek_reads (i := j + 1) (by omega) (by omega)).bind fun x hx => ?_
    have hget : (l.eraseIdx i)[j]? = some x := by
      rw [List.getElem?_append_right (by omega), htake, List.getElem?_drop] at hx
      rw [List.getElem?_eraseIdx_of_ge hij, ← hx]
      congr 1
      omega
    refine Runs.bindS (ho.poke_runs (i := j) (by omega) (by omega) (by omega) x) fun _ w' ho' => ?_
    have hstep : ((l.eraseIdx i).take j ++ l.drop j).take j ++ x :: ((l.eraseIdx i).take j ++ l.drop j).drop (j + 1) =
        (l.eraseIdx i).take (j + 1) ++ l.drop (j + 1) := by
      rw [List.take_append_of_le_length htake.ge, List.take_of_length_le htake.le, List.drop_append,
        List.drop_of_length_le (by omega), List.nil_append, htake, List.drop_drop, Nat.add_sub_cancel_left,
        List.take_add_one, hget, List.append_assoc]
      rfl
    rw [hstep] at ho'
    have hnext : j + (m + 1) = j + 1 + m := by omega
    rw [hnext]
    exact ih (by omega) (by omega) ho'

theorem remove_runs (hs : Sound vs w) (h : vs[v]? = some q) (i : Nat) :
    Runs allowed (remove v i w) fun r => r.1 = q.cells.getD i 0 ∧ Becomes vs v (q.cells.eraseIdx i) r.2 := by
  refine (hs.deref_reads h).bind fun r hr => ?_
  rw [hr]
  by_cases hi : q.record.len ≤ i
  · rw [if_pos hi, List.eraseIdx_of_length_le hi, List.getD_eq_default _ _ hi]
    exact Runs.ok ⟨rfl, Becomes.refl hs h⟩
  rw [if_neg hi]
  have hlt : i < q.cells.length := not_le.1 hi
  have hfits := q.fits
  have hsmall := q.small
  obtain ⟨c, hdata⟩ := Vec.addr_of_pos (q := q) (by omega)
  have ho := hs.opened h hdata
  rw [show q.record.data = some c from hdata, show q.record.len = q.cells.length from rfl]
  refine (ho.peek_reads hlt (by omega)).bind fun x hx => ?_
  have herase : (q.cells.eraseIdx i).length = q.cells.length - 1 := List.length_eraseIdx_of_lt hlt
  have hstart : (q.cells.eraseIdx i).take i ++ q.cells.drop i = q.cells := by
    rw [List.eraseIdx_eq_take_drop_succ, List.take_append_of_le_length (by rw [List.length_take]; omega), List.take_take,
      min_self, List.take_append_drop]
  refine Runs.bindS (shiftDown_runs (q.cells.length - 1 - i) le_rfl (by omega) hfits hsmall (hstart.symm ▸ ho))
    fun _ w₁ ho₁ => ?_
  have hlast : i + (q.cells.length - 1 - i) = (q.cells.eraseIdx i).length := by omega
  rw [hlast, List.take_length] at ho₁
  have hfinish : Runs allowed (assign v ⟨_, q.cap, some c⟩ w₁) _ :=
    ho₁.finish_runs (List.prefix_append _ _) (by omega) (by omega) herase.symm
  refine Runs.bindS hfinish fun _ w₂ hw₂ => ?_
  refine Runs.ok ⟨?_, hw₂⟩
  rw [List.getD_eq_getElem?_getD, hx]
  rfl

theorem swap_runs (hs : Sound vs w) (h : vs[v]? = some q) (i j : Nat) :
    Runs allowed (swap v i j w) fun r => Becomes vs v (swapCells q.cells i j) r.2 := by
  refine (hs.deref_reads h).bind fun r hr => ?_
  rw [hr, swapCells]
  by_cases hij : i < q.record.len ∧ j < q.record.len
  · rw [if_pos hij, if_pos (show i < q.cells.length ∧ j < q.cells.length from hij)]
    obtain ⟨hi, hj⟩ : i < q.cells.length ∧ j < q.cells.length := hij
    have hfits := q.fits
    have hsmall := q.small
    obtain ⟨c, hdata⟩ := Vec.addr_of_pos (q := q) (by omega)
    have ho := hs.opened h hdata
    rw [show q.record.data = q.data from rfl]
    refine (hs.peek_reads h hi).bind fun t ht => (hs.peek_reads h hj).bind fun x hx => ?_
    rw [hdata]
    refine Runs.bindS (ho.poke_runs (by omega) hi.le (by omega) x) fun _ w₁ ho₁ => ?_
    rw [← List.set_eq_take_cons_drop x hi] at ho₁
    have hlen : (q.cells.set i x).length = q.cells.length := List.length_set
    refine (ho₁.poke_runs (i := j) (by omega) (by omega) (by omega) t).mono fun r ho₂ => ?_
    rw [← List.set_eq_take_cons_drop t (by omega), show x = _ from hx, show t = _ from ht] at ho₂
    exact ho₂.becomes (by rw [List.length_set, List.length_set])
  · rw [if_neg hij, if_neg (show ¬ (i < q.cells.length ∧ j < q.cells.length) from hij)]
    exact Runs.ok (Becomes.refl hs h)

/-! ## Every run -/

/-- The lists are those of sound vectors. -/
def Represents (ls : List (List Cell)) (w : World) : Prop := ∃ vs, vs.map Vec.cells = ls ∧ Sound vs w

theorem getElem?_map_cells {ls : List (List Cell)} (hls : vs.map Vec.cells = ls) (hl : ls[v]? = some l) :
    ∃ q, vs[v]? = some q ∧ q.cells = l := by
  rw [← hls, List.getElem?_map, Option.map_eq_some_iff] at hl
  exact hl

theorem Becomes.represents {ls : List (List Cell)} (hb : Becomes vs v l w) (hls : vs.map Vec.cells = ls) :
    Represents (ls.set v l) w := by
  obtain ⟨q, hl, hs⟩ := hb
  exact ⟨vs.set v q, by rw [List.map_set, hl, hls], hs⟩

/-- An operation that makes nothing longer. -/
theorem change_runs {β : Type} {y : Proc β} {f : List Cell → List Cell} {o : List Cell → Out} {g : β → Out}
    {ls ls' : List (List Cell)} {out : Out}
    (hy : ∀ vs q w, Sound vs w → vs[v]? = some q →
      Runs allowed (y w) fun r => g r.1 = o q.cells ∧ Becomes vs v (f q.cells) r.2)
    (hw : Represents ls w) (hspec : change ls v f o = some (ls', out)) :
    Runs allowed ((do return g (← y) : Proc Out) w) fun r => r.1 = out ∧ Represents ls' r.2 := by
  obtain ⟨vs, hls, hs⟩ := hw
  obtain ⟨l, hl, hspec⟩ := Option.map_eq_some_iff.1 hspec
  obtain ⟨rfl, rfl⟩ := Prod.mk.inj hspec
  obtain ⟨q, hq, rfl⟩ := getElem?_map_cells hls hl
  exact Runs.bindS (hy vs q w hs hq) fun _ _ hr => Runs.ok ⟨hr.1, hr.2.represents hls⟩

/-- An operation that reads a vector. -/
theorem read_runs {β : Type} {y : Proc β} {o : List Cell → Out} {g : β → Out} {ls ls' : List (List Cell)} {out : Out}
    (hy : ∀ vs q w, Sound vs w → vs[v]? = some q → Reads allowed y w fun b => g b = o q.cells)
    (hw : Represents ls w) (hspec : change ls v id o = some (ls', out)) :
    Runs allowed ((do return g (← y) : Proc Out) w) fun r => r.1 = out ∧ Represents ls' r.2 := by
  refine change_runs (fun vs q w hs hq => (hy vs q w hs hq).mono ?_) hw hspec
  rintro ⟨b, w'⟩ ⟨hb, hw'⟩
  obtain rfl : w' = w := hw'
  exact ⟨hb, Becomes.refl hs hq⟩

/-- An operation that adds a cell. -/
theorem extend_runs {y : Proc Unit} {f : List Cell → List Cell} {ls ls' : List (List Cell)} {out : Out}
    (hy : ∀ vs q w, Sound vs w → vs[v]? = some q → q.cells.length < maxIdx + 1 →
      Runs allowed (y w) fun r => Becomes vs v (f q.cells) r.2)
    (hw : Represents ls w) (hspec : extend (maxIdx + 1) ls v f = some (ls', out)) :
    Runs allowed ((do
      y
      return Out.none : Proc Out) w) fun r => r.1 = out ∧ Represents ls' r.2 := by
  obtain ⟨vs, hls, hs⟩ := hw
  rw [extend] at hspec
  cases hl : ls[v]? with
  | none =>
    rw [hl] at hspec
    cases hspec
  | some l =>
    rw [hl] at hspec
    dsimp only at hspec
    split_ifs at hspec with hlen
    obtain ⟨rfl, rfl⟩ := Prod.mk.inj (Option.some_inj.1 hspec)
    obtain ⟨q, hq, rfl⟩ := getElem?_map_cells hls hl
    exact Runs.bindS (hy vs q w hs hq hlen) fun _ _ hr => Runs.ok ⟨rfl, hr.represents hls⟩

/-- A new vector comes behind the others. -/
theorem new_runs {y : Proc Nat} {ls : List (List Cell)}
    (hy : ∀ vs w, Sound vs w →
      Runs allowed (y w) fun r => r.1 = vs.length ∧ ∃ q : Vec, q.cells = [] ∧ Sound (vs ++ [q]) r.2)
    (hw : Represents ls w) :
    Runs allowed ((do return Out.vector (← y) : Proc Out) w) fun r =>
      r.1 = .vector ls.length ∧ Represents (ls ++ [[]]) r.2 := by
  obtain ⟨vs, rfl, hs⟩ := hw
  refine Runs.bindS (hy vs w hs) ?_
  rintro _ w' ⟨rfl, q, hcells, hs'⟩
  exact Runs.ok ⟨by rw [List.length_map], vs ++ [q], by rw [List.map_append, List.map_singleton, hcells], hs'⟩

/-- The largest capacity that is requested. -/
def maxCap : Nat := 2 ^ 58

theorem length_reads (hs : Sound vs w) (h : vs[v]? = some q) :
    Reads allowed (deref v) w fun r => Out.card r.len = .card q.cells.length := by
  refine (hs.deref_reads h).mono fun r hr => ⟨?_, hr.2⟩
  rw [hr.1]
  rfl

/-- An operation does to the vectors what it does to the lists. -/
theorem exec_runs {op : Op} {ls ls' : List (List Cell)} {o : Out} (hw : Represents ls w)
    (hspec : spec (maxIdx + 1) maxCap ls op = some (ls', o)) :
    Runs allowed (exec M op w) fun r => r.1 = o ∧ Represents ls' r.2 := by
  cases op with
  | create =>
    obtain ⟨rfl, rfl⟩ := Prod.mk.inj (Option.some_inj.1 hspec)
    exact new_runs (fun _ _ hs => create_runs hs) hw
  | createCap cap =>
    rw [spec, Option.ite_none_right_eq_some] at hspec
    obtain ⟨hcap, hspec⟩ := hspec
    obtain ⟨rfl, rfl⟩ := Prod.mk.inj (Option.some_inj.1 hspec)
    exact new_runs (fun _ _ hs => createCap_runs hs hcap) hw
  | reserve v cap =>
    rw [spec, Option.ite_none_right_eq_some] at hspec
    refine change_runs (g := fun _ => .none) (fun vs q w hs hq => (reserve_runs hs hq hspec.1).mono ?_) hw hspec.2
    rintro r ⟨q', hcells, -, hs'⟩
    exact ⟨rfl, q', hcells, hs'⟩
  | push v x => exact extend_runs (fun vs q w hs hq hlen => push_runs hs hq hlen x) hw hspec
  | pop v =>
    exact change_runs (g := .cell) (fun vs q w hs hq => (pop_runs hs hq).mono fun r hr => ⟨congrArg _ hr.1, hr.2⟩) hw hspec
  | last v =>
    exact read_runs (g := .cell) (fun vs q w hs hq => (last_reads hs hq).mono fun r hr => ⟨congrArg _ hr.1, hr.2⟩) hw hspec
  | get v i =>
    exact read_runs (g := .cell) (fun vs q w hs hq => (get_reads hs hq i).mono fun r hr => ⟨congrArg _ hr.1, hr.2⟩) hw hspec
  | set v i x =>
    exact change_runs (g := fun _ => .none) (fun vs q w hs hq => (set_runs hs hq i x).mono fun r hr => ⟨rfl, hr⟩) hw hspec
  | insert v i x => exact extend_runs (fun vs q w hs hq hlen => insert_runs hs hq hlen i x) hw hspec
  | remove v i =>
    exact change_runs (g := .cell) (fun vs q w hs hq => (remove_runs hs hq i).mono fun r hr => ⟨congrArg _ hr.1, hr.2⟩)
      hw hspec
  | swap v i j =>
    exact change_runs (g := fun _ => .none) (fun vs q w hs hq => (swap_runs hs hq i j).mono fun r hr => ⟨rfl, hr⟩) hw hspec
  | clear v =>
    exact change_runs (g := fun _ => .none) (fun vs q w hs hq => (clear_runs hs hq).mono fun r hr => ⟨rfl, hr⟩) hw hspec
  | length v => exact read_runs (g := fun r : VRec => .card r.len) (fun vs q w hs hq => length_reads hs hq) hw hspec

theorem run_runs {ops : List Op} {ls ls' : List (List Cell)} {os : List Out} (hw : Represents ls w)
    (hspec : specRun (maxIdx + 1) maxCap ls ops = some (ls', os)) :
    Runs allowed (run M ops w) fun r => r.1 = os ∧ Represents ls' r.2 := by
  induction ops generalizing ls os w with
  | nil =>
    obtain ⟨rfl, rfl⟩ := Prod.mk.inj (Option.some_inj.1 hspec)
    exact Runs.ok ⟨rfl, hw⟩
  | cons op ops ih =>
    obtain ⟨⟨ls₁, o⟩, hop, hspec⟩ := Option.bind_eq_some_iff.1 hspec
    obtain ⟨⟨ls₂, os'⟩, hops, hspec⟩ := Option.bind_eq_some_iff.1 hspec
    obtain ⟨rfl, rfl⟩ := Prod.mk.inj (Option.some_inj.1 hspec)
    refine Runs.bindS (exec_runs hw hop) ?_
    rintro o' w' ⟨rfl, hw'⟩
    refine Runs.bindS (ih hw' hops) ?_
    rintro os'' w'' ⟨rfl, hw''⟩
    exact Runs.ok ⟨rfl, hw''⟩

theorem filterMap_data (vs : List Vec) :
    (vs.map Vec.record).filterMap VRec.data = (vs.filterMap Vec.block).map Prod.fst := by
  rw [List.filterMap_map, List.map_filterMap]
  refine List.filterMap_congr fun q _ => ?_
  rw [Vec.block, Option.map_map]
  exact Option.map_id'.symm

theorem Represents.holds {ls : List (List Cell)} (hw : Represents ls w) : Holds ls w := by
  obtain ⟨vs, rfl, hs⟩ := hw
  refine ⟨by rw [hs.vecs, List.length_map, List.length_map], ?_, ?_, fun v l hl => ?_⟩
  · rw [hs.vecs, filterMap_data]
    exact hs.heap.nodup
  · rw [hs.vecs, filterMap_data]
    exact hs.heap.perm_inUse
  · obtain ⟨q, hq, rfl⟩ := getElem?_map_cells rfl hl
    refine ⟨q.record, ?_, rfl, q.fits, fun hdata => ?_, fun c hdata => ?_⟩
    · rw [hs.vecs, List.getElem?_map, hq]
      rfl
    · rcases q.pow with ⟨-, hzero⟩ | ⟨hsome, -⟩
      · exact hzero
      · exact absurd hdata hsome
    · obtain ⟨cells, hget, hlen, hpre⟩ := (hs.opened hq hdata).heap.head
      exact ⟨cells, hget, hlen, hpre⟩

theorem represents_start : Represents [] World.start := ⟨[], rfl, rfl, Owns.nil⟩

/-- From the start on, every operation returns what the lists say, and the vectors hold them. -/
theorem run_start {ops : List Op} {ls : List (List Cell)} {os : List Out}
    (hspec : specRun (maxIdx + 1) maxCap [] ops = some (ls, os)) :
    ∃ w, run M ops World.start = .ok (os, w) ∧ Holds ls w := by
  obtain ⟨⟨os', w⟩, hrun, rfl, hw⟩ := (run_runs (M := M) represents_start hspec).succeeds
  exact ⟨w, hrun, hw.holds⟩

end operations

end NewM2.Winrt.Vector
