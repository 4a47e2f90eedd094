import Mathlib.Data.Nat.Bitwise
import NewM2.Lib.Mem

/-! # The Modula-2 heap (`library/winrtmod/Heap.mod`)

A boundary-tag allocator. Addresses and CARDINALs are numbers below `2 ^ 64`; sums wrap. -/

namespace NewM2.M2Heap

def hdr : Nat := 16
def minBlock : Nat := 32
def allocFlag : Nat := 1
def sizeMask : Nat := 0xFFFFFFFFFFFFFFF0
def chunkMeta : Nat := 16
def sentinel : Nat := 16
def pageMask : Nat := 0xFFFFFFFFFFFF0000
def pageUp : Nat := 0xFFFF
def defaultChunk : Nat := 0x100000

/-- The module variables, and the memory. -/
structure Heap where
  mem : Mem
  gFirstChunk : Nat
  gFreeHead : Nat
  gInUse : Nat

/-! ## Words and addresses -/

def wget (m : Mem) (a : Nat) : Nat := m.read a 8
def wput (m : Mem) (a v : Nat) : Mem := m.write a 8 v
/-- The sum of two CARDINALs. -/
def cadd (a n : Nat) : Nat := (a + n) % 2 ^ 64
def csub (a n : Nat) : Nat := (a + (2 ^ 64 - n)) % 2 ^ 64
def off (a n : Nat) : Nat := cadd a n
def offN (a n : Nat) : Nat := csub a n

/-! ## Blocks -/

def blkSize (m : Mem) (b : Nat) : Nat := wget m b &&& sizeMask
def blkAlloc (m : Mem) (b : Nat) : Bool := wget m b &&& allocFlag != 0
def blkPrev (m : Mem) (b : Nat) : Nat := wget m (off b 8)

def setHdr (m : Mem) (b size : Nat) (alloc : Bool) (prevSize : Nat) : Mem :=
  wput (if alloc then wput m b (size ||| allocFlag) else wput m b size) (off b 8) prevSize

/-! ## The free list -/

def fNext (m : Mem) (b : Nat) : Nat := wget m (off b 16)
def fPrev (m : Mem) (b : Nat) : Nat := wget m (off b 24)
def setFNext (m : Mem) (b x : Nat) : Mem := wput m (off b 16) x
def setFPrev (m : Mem) (b x : Nat) : Mem := wput m (off b 24) x

namespace Heap

def insertFree (h : Heap) (b : Nat) : Heap :=
  let m := setFPrev (setFNext h.mem b h.gFreeHead) b 0
  { h with mem := if h.gFreeHead ≠ 0 then setFPrev m h.gFreeHead b else m, gFreeHead := b }

def removeFree (h : Heap) (b : Nat) : Heap :=
  let h₁ : Heap := if fPrev h.mem b ≠ 0 then { h with mem := setFNext h.mem (fPrev h.mem b) (fNext h.mem b) }
    else { h with gFreeHead := fNext h.mem b }
  if fNext h₁.mem b ≠ 0 then { h₁ with mem := setFPrev h₁.mem (fNext h₁.mem b) (fPrev h₁.mem b) } else h₁

/-- First fit from `b` on. `none`: still searching after `fuel` blocks. -/
def findFitFrom (m : Mem) (need : Nat) : Nat → Nat → Option Nat
  | 0, _ => none
  | fuel + 1, b =>
    if b = 0 then some 0
    else if blkSize m b ≥ need then some b
    else findFitFrom m need fuel (fNext m b)

def findFit (h : Heap) (fuel need : Nat) : Option Nat := findFitFrom h.mem need fuel h.gFreeHead

end Heap

def roundUp (n mask up : Nat) : Nat := cadd n up &&& mask

/-! ## Growing -/

/-- How much `GrowHeap` asks the operating system for. -/
def growBytes (needBlock : Nat) : Nat :=
  if cadd (cadd needBlock chunkMeta) sentinel > defaultChunk then
    roundUp (cadd (cadd needBlock chunkMeta) sentinel) pageMask pageUp
  else defaultChunk

namespace Heap

/-- `base` is what `VirtualAlloc` returns. The pages that it commits are zero. -/
def growHeap (h : Heap) (needBlock base : Nat) : Heap × Bool :=
  let bytes := growBytes needBlock
  if base = 0 then (h, false)
  else
    let m := h.mem.fill base bytes
    let m := wput m base h.gFirstChunk
    let m := wput m (off base 8) bytes
    let firstBlk := off base chunkMeta
    let fbSize := csub (csub bytes chunkMeta) sentinel
    let m := setHdr m firstBlk fbSize false 0
    let sent := off base (csub bytes sentinel)
    let m := setHdr m sent sentinel true fbSize
    ({ h with mem := m, gFirstChunk := base }.insertFree firstBlk, true)

/-! ## Allocate -/

/-- `turns` turns of the loop that zeroes the payload at `p`. -/
def zeroPayload (p : Nat) : Nat → Nat → Mem → Mem
  | 0, _, m => m
  | turns + 1, i, m => zeroPayload p turns (i + 8) (wput m (off p i) 0)

/-- What `Allocate` does with the block that it found. `need` is a multiple of 16. -/
def take (h : Heap) (b blockNeed need : Nat) : Heap × Nat :=
  let h := h.removeFree b
  let bsize := blkSize h.mem b
  let h :=
    if bsize ≥ cadd blockNeed minBlock then
      let rem := off b blockNeed
      let remSize := csub bsize blockNeed
      let m := wput h.mem b (blockNeed ||| allocFlag)
      let m := setHdr m rem remSize false blockNeed
      let nb := off rem remSize
      let m := wput m (off nb 8) remSize
      { h with mem := m }.insertFree rem
    else { h with mem := wput h.mem b (bsize ||| allocFlag) }
  let p := off b hdr
  ({ h with
      gInUse := cadd h.gInUse (blkSize h.mem b)
      mem := zeroPayload p (need / 8) 0 h.mem }, p)

/-- The size of the block for a request, and the bytes of it that are zeroed. `none`: the size wraps. -/
def blockNeedFor (size : Nat) : Option (Nat × Nat) :=
  let need := roundUp size sizeMask 15
  if need < size then none
  else
    let need := if need < 16 then 16 else need
    let blockNeed := cadd need hdr
    if blockNeed < need then none else some (blockNeed, need)

/-- The new heap and the payload, NIL if there is none. `base` is what `VirtualAlloc` returns if it is
called. `none`: a search of the free list does not end within `fuel` blocks. -/
def allocate (h : Heap) (fuel base size : Nat) : Option (Heap × Nat) :=
  match blockNeedFor size with
  | none => some (h, 0)
  | some (blockNeed, need) => do
    let b ← h.findFit fuel blockNeed
    if b ≠ 0 then return h.take b blockNeed need
    else
      let (h, grown) := h.growHeap blockNeed base
      if grown then
        let b ← h.findFit fuel blockNeed
        if b ≠ 0 then return h.take b blockNeed need else return (h, 0)
      else return (h, 0)

/-- How many bytes `allocate` asks `VirtualAlloc` for, if it calls it. -/
def asksFor (h : Heap) (fuel size : Nat) : Option Nat :=
  match blockNeedFor size with
  | none => none
  | some (blockNeed, _) => if h.findFit fuel blockNeed = some 0 then some (growBytes blockNeed) else none

/-! ## Deallocate -/

/-- Merge the block behind `b` into `b` when it is free. -/
def coalesceForward (h : Heap) (b : Nat) : Heap :=
  let nextB := off b (blkSize h.mem b)
  if blkAlloc h.mem nextB then h
  else
    let h := h.removeFree nextB
    { h with mem := wput h.mem b (cadd (blkSize h.mem b) (blkSize h.mem nextB)) }

/-- Merge `b` into the block in front of it when that is free; the block that has `b` then. -/
def coalesceBackward (h : Heap) (b : Nat) : Heap × Nat :=
  let ps := blkPrev h.mem b
  if ps = 0 then (h, b)
  else
    let prevB := offN b ps
    if blkAlloc h.mem prevB then (h, b)
    else
      let h := h.removeFree prevB
      ({ h with mem := wput h.mem prevB (cadd (blkSize h.mem prevB) (blkSize h.mem b)) }, prevB)

/-- The caller's variable becomes NIL in every case. -/
def deallocate (h : Heap) (p : Nat) : Heap :=
  if p = 0 then h
  else
    let b := offN p hdr
    if !blkAlloc h.mem b then h
    else
      let h := { h with gInUse := csub h.gInUse (blkSize h.mem b) }
      let h := { h with mem := wput h.mem b (blkSize h.mem b) }
      let h := h.coalesceForward b
      let (h, b) := h.coalesceBackward b
      let nb := off b (blkSize h.mem b)
      { h with mem := wput h.mem (off nb 8) (blkSize h.mem b) }.insertFree b

/-! ## For NEW and DISPOSE -/

def alloc (h : Heap) (fuel base size : Nat) : Option (Heap × Nat) := h.allocate fuel base size
def free (h : Heap) (p : Nat) : Heap := h.deallocate p

def bytesInUse (h : Heap) : Nat := h.gInUse

/-- The module body. -/
def init (m : Mem) : Heap := ⟨m, 0, 0, 0⟩

end Heap

end NewM2.M2Heap
