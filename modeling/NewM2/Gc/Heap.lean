import NewM2.Lib.Mem
import NewM2.Lib.Bitmap

/-!
# The cluster heap (`newm2-runtime/src/gc.rs`)

Data layout and operations of the mark-and-sweep collector. Addresses and machine words are naturals
below `2 ^ 64`; the heap memory is byte-addressed (`Mem`), so a header is the two words at a block's
address (`tag`, `block_size`) and a free block's link is the word behind them. Loops that walk a
cluster or a chain take a fuel argument that the callers instantiate with `bump`, which the tiling
invariant shows to be enough; the mark loop takes its fuel from the caller of the collector.

The stacks of the mutators and the module variables are separate memories (`Mutator.stack`,
`Heap.statics`): the operating system never hands out a cluster on top of either.
-/

namespace NewM2.Gc

/-- A machine word read from memory. -/
abbrev rd (m : Mem) (a : Nat) : Nat := Mem.read m a 8

/-- Store a machine word. -/
abbrev wr (m : Mem) (a v : Nat) : Mem := Mem.write m a 8 v

/-! ## Block headers -/

def headerSize : Nat := 16
def blockAlign : Nat := 16
def minBlock : Nat := 32
def defaultClusterSize : Nat := 2 ^ 20

/-- `tag & MARK_BIT != 0`. -/
def isMarked (tag : Nat) : Bool := tag % 2 == 1

/-- `tag | MARK_BIT`. -/
def setMark (tag : Nat) : Nat := tag ||| 1

/-- `tag & !MARK_BIT`. -/
def clearMark (tag : Nat) : Nat := tag - tag % 2

/-- A tag denotes a free block when it is zero apart from the mark bit. -/
def isFree (tag : Nat) : Bool := clearMark tag == 0

def tagOf (m : Mem) (block : Nat) : Nat := rd m block
def blockSize (m : Mem) (block : Nat) : Nat := rd m (block + 8)

/-- The `FreeBlockLink` at the start of a free block's payload. -/
def nextLink (m : Mem) (block : Nat) : Nat := rd m (block + headerSize)

/-- Runtime type descriptor: payload size, finalizer address and the sentinel-terminated array of
pointer offsets (the fields the collector reads). -/
structure TypeDesc where
  size : Int
  finalizer : Option Nat
  ptroffs : List Int
deriving Repr, DecidableEq

/-- `pointer_offsets`: the entries before the first negative one. -/
def TypeDesc.pointerOffsets (td : TypeDesc) : List Int := td.ptroffs.takeWhile (0 ≤ ·)

/-! ## Clusters -/

inductive AllocPath
  | bump | freeList
deriving Repr, DecidableEq

structure Cluster where
  base : Nat
  size : Nat
  bump : Nat
  freeList : Nat
  blockStarts : Bitmap
deriving Repr, DecidableEq

namespace Cluster

/-- `Cluster::new`: the operating system returns `base` with `size` zeroed bytes. -/
def new (base minSize : Nat) : Cluster :=
  let size := max minSize defaultClusterSize
  { base, size, bump := 0, freeList := 0
    blockStarts := List.replicate ((size / blockAlign + 63) / 64) 0#64 }

def contains (c : Cluster) (addr : Nat) : Bool := c.base ≤ addr && addr < c.base + c.bump

def markBlockStart (c : Cluster) (offset : Nat) : Cluster :=
  { c with blockStarts := c.blockStarts.set (offset / blockAlign) }

def clearBlockStart (c : Cluster) (offset : Nat) : Cluster :=
  { c with blockStarts := c.blockStarts.clear (offset / blockAlign) }

/-- The words below index `w`, from the highest down: the block start of the first non-zero one. -/
def scanDown (bm : Bitmap) : Nat → Option Nat
  | 0 => none
  | w + 1 =>
    if bm.word w ≠ 0 then some ((w * 64 + Bitmap.topBit (bm.word w)) * blockAlign)
    else scanDown bm w

def blockStartAtOrBelow (c : Cluster) (offset : Nat) : Option Nat :=
  let bit := min offset (c.bump - blockAlign) / blockAlign
  let first := c.blockStarts.word (bit / 64) &&& Bitmap.lowMask (bit % 64)
  if first ≠ 0 then some ((bit / 64 * 64 + Bitmap.topBit first) * blockAlign)
  else scanDown c.blockStarts (bit / 64)

/-- Where a link is stored: the `free_list` field or the link cell of a block. -/
inductive LinkCell
  | head
  | at (addr : Nat)
deriving Repr, DecidableEq

/-- First fit: the link cell that leads to the first block of at least `total` bytes. -/
def findFit (m : Mem) (total : Nat) : Nat → LinkCell → Nat → Option (LinkCell × Nat)
  | 0, _, _ => none
  | fuel + 1, prev, block =>
    if block = 0 then none
    else if total ≤ blockSize m block then some (prev, block)
    else findFit m total fuel (.at (block + headerSize)) (nextLink m block)

/-- `*prev_link = v`. -/
def storeLink (m : Mem) (c : Cluster) : LinkCell → Nat → Mem × Cluster
  | .head, v => (m, { c with freeList := v })
  | .at a, v => (wr m a v, c)

/-- The free-list half of `try_alloc`: unlink `block`, split off the rest if a block fits in it,
zero the payload. -/
def takeFree (m : Mem) (c : Cluster) (total : Nat) (prev : LinkCell) (block : Nat) :
    Mem × Cluster :=
  let size := blockSize m block
  let (m, c) := storeLink m c prev (nextLink m block)
  let leftover := size - total
  let (m, c) :=
    if minBlock ≤ leftover then
      let split := block + total
      let m := wr (wr m split 0) (split + 8) leftover
      let m := wr m (split + headerSize) c.freeList
      let c := { c with freeList := split }.markBlockStart (split - c.base)
      (wr m (block + 8) total, c)
    else (m, c)
  let finalSize := blockSize m block
  (Mem.fill m (block + headerSize) (finalSize - headerSize), c)

/-- The bump half of `try_alloc`. -/
def takeBump (m : Mem) (c : Cluster) (total : Nat) : Mem × Cluster × Nat :=
  let block := c.base + c.bump
  (wr m (block + 8) total, { c with bump := c.bump + total }.markBlockStart c.bump, block)

def tryAlloc (m : Mem) (c : Cluster) (total : Nat) : Option (Mem × Cluster × Nat × AllocPath) :=
  match findFit m total c.bump .head c.freeList with
  | some (prev, block) =>
    let (m, c) := takeFree m c total prev block
    some (m, c, block, .freeList)
  | none =>
    if c.bump + total ≤ c.size then
      let (m, c, block) := takeBump m c total
      some (m, c, block, .bump)
    else none

/-- `Cluster::resolve`: the payload start of the allocated block containing `addr`. -/
def resolve (m : Mem) (c : Cluster) (addr : Nat) : Option Nat :=
  if ¬ c.contains addr then none
  else
    match c.blockStartAtOrBelow (addr - c.base) with
    | none => none
    | some off =>
      let block := c.base + off
      let size := blockSize m block
      if size < minBlock ∨ c.bump < off + size then none
      else if block + size ≤ addr then none
      else if isFree (tagOf m block) then none
      else if addr < block + headerSize then none
      else some (block + headerSize)

end Cluster

/-! ## Heap state -/

structure TypeDescEntry where
  blockCount : Nat
  sizeBytes : Int
deriving Repr, DecidableEq

/-- `TypeDescRegistry::by_addr`. -/
abbrev Registry := Nat → Option TypeDescEntry

namespace Registry

def inc (r : Registry) (descs : Nat → TypeDesc) (td : Nat) : Registry := fun a =>
  if a = td then
    let e := (r td).getD ⟨0, if td = 0 then 0 else (descs td).size⟩
    some { e with blockCount := min (e.blockCount + 1) (2 ^ 64 - 1) }
  else r a

def dec (r : Registry) (td : Nat) : Registry := fun a =>
  if a = td then (r td).map fun e => { e with blockCount := e.blockCount - 1 } else r a

end Registry

/-- A registered module: the addresses `var_base + offset` of its pointer variables. -/
structure ModuleRoots where
  name : String
  varBase : Nat
  offsets : List Nat
deriving Repr, DecidableEq

/-- What the collector reads of a parked mutator. -/
structure Mutator where
  parkedSp : Nat
  stackTop : Nat
  stack : Nat → Nat
  spill : List Nat

structure Heap where
  mem : Mem
  clusters : List Cluster
  modules : List ModuleRoots
  statics : Nat → Nat
  typeDescs : Registry
  pendingFinalizers : List (Nat × Nat)
  pressure : Nat

def resolveHeapPtr (m : Mem) (cs : List Cluster) (addr : Nat) : Option Nat :=
  if addr = 0 then none else cs.findSome? (Cluster.resolve m · addr)

/-! ## Mark -/

/-- Clear the mark bit of every header on the walk of one cluster. -/
def clearMarksFrom (c : Cluster) : Nat → Nat → Mem → Mem
  | 0, _, m => m
  | fuel + 1, offset, m =>
    if c.bump ≤ offset then m
    else
      let block := c.base + offset
      if blockSize m block < minBlock then m
      else
        let m := wr m block (clearMark (tagOf m block))
        clearMarksFrom c fuel (offset + blockSize m block) m

def clearMarks (m : Mem) (cs : List Cluster) : Mem :=
  cs.foldl (fun m c => clearMarksFrom c c.bump 0 m) m

/-- The children `mark_object` pushes for the block with header `hdr`: the non-null pointer fields
of its payload, up to the first offset that leaves the payload. Nothing is pushed for an
unregistered descriptor or one whose size does not fit. -/
def children (m : Mem) (reg : Registry) (descs : Nat → TypeDesc) (hdr : Nat) : List Nat :=
  let td := clearMark (tagOf m hdr)
  if td = 0 then []
  else if (reg td).isNone then []
  else
    let payloadBytes := blockSize m hdr - headerSize
    if (descs td).size ≤ 0 ∨ payloadBytes < (descs td).size.toNat then []
    else
      let offs := (descs td).pointerOffsets.takeWhile fun o => o.toNat + 8 ≤ payloadBytes
      (offs.map fun o => rd m (hdr + headerSize + o.toNat)).filter (· ≠ 0)

/-- `mark_object`'s loop; the worklist is a stack whose top is the head of `work`. -/
def markLoop (reg : Registry) (descs : Nat → TypeDesc) : Nat → Mem → List Nat → Option Mem
  | _, m, [] => some m
  | 0, _, _ :: _ => none
  | fuel + 1, m, payload :: work =>
    if payload = 0 then markLoop reg descs fuel m work
    else
      let hdr := payload - headerSize
      let tag := tagOf m hdr
      if isMarked tag ∨ isFree tag then markLoop reg descs fuel m work
      else
        let m := wr m hdr (setMark tag)
        markLoop reg descs fuel m ((children m reg descs hdr).reverse ++ work)

def markObject (fuel : Nat) (m : Mem) (reg : Registry) (descs : Nat → TypeDesc) (start : Nat) :
    Option Mem :=
  markLoop reg descs fuel m [start]

/-- The words of a mutator's stack from `cursor` up, one machine word at a time. -/
def stackWords (mu : Mutator) : Nat → Nat → List Nat
  | 0, _ => []
  | fuel + 1, cursor =>
    if cursor < mu.stackTop then mu.stack cursor :: stackWords mu fuel (cursor + 8) else []

/-- The words scanned conservatively for one mutator: its stack and its spilled registers. -/
def Mutator.rootWords (mu : Mutator) : List Nat :=
  if mu.parkedSp = 0 ∨ mu.stackTop = 0 ∨ mu.stackTop ≤ mu.parkedSp then []
  else stackWords mu (mu.stackTop - mu.parkedSp) mu.parkedSp ++ mu.spill

/-- The values of all registered module root slots. -/
def Heap.moduleSlots (h : Heap) : List Nat :=
  h.modules.flatMap fun mr => mr.offsets.map fun o => h.statics (mr.varBase + o)

/-- Mark from each word of `ws` that resolves to a block, counting the roots. -/
def markWords (fuel : Nat) (reg : Registry) (descs : Nat → TypeDesc) (cs : List Cluster) :
    List Nat → Mem → Nat → Option (Mem × Nat)
  | [], m, n => some (m, n)
  | w :: ws, m, n =>
    match resolveHeapPtr m cs w with
    | none => markWords fuel reg descs cs ws m n
    | some payload =>
      match markObject fuel m reg descs payload with
      | none => none
      | some m => markWords fuel reg descs cs ws m (n + 1)

/-- Mark from each non-null module slot (precise roots are not resolved). -/
def markSlots (fuel : Nat) (reg : Registry) (descs : Nat → TypeDesc) :
    List Nat → Mem → Nat → Option (Mem × Nat)
  | [], m, n => some (m, n)
  | p :: ps, m, n =>
    if p = 0 then markSlots fuel reg descs ps m n
    else
      match markObject fuel m reg descs p with
      | none => none
      | some m => markSlots fuel reg descs ps m (n + 1)

/-! ## Sweep -/

structure SweepStats where
  blocksFreed : Nat := 0
  bytesFreed : Nat := 0
  liveBlocks : Nat := 0
  bytesLive : Nat := 0
deriving Repr, DecidableEq

/-- The state of one `cluster_sweep` walk. -/
structure SweepState where
  mem : Mem
  cluster : Cluster
  reg : Registry
  pending : List (Nat × Nat)
  stats : SweepStats
  prevFree : Nat

/-- Account for a dead block: statistics, registry count and its finalizer. -/
def SweepState.retire (descs : Nat → TypeDesc) (s : SweepState) (block size : Nat) : SweepState :=
  let td := clearMark (tagOf s.mem block)
  let stats := { s.stats with
    blocksFreed := s.stats.blocksFreed + 1, bytesFreed := s.stats.bytesFreed + size }
  let reg := s.reg.dec td
  let pending :=
    if (reg td).isSome ∧ 0 < (descs td).size ∧ (descs td).size.toNat ≤ size - headerSize then
      match (descs td).finalizer with
      | some fin => s.pending ++ [(fin, block + headerSize)]
      | none => s.pending
    else s.pending
  { s with stats, reg, pending }

/-- Put a free or dead block on the free list, or merge it into the free block just before it. -/
def SweepState.release (s : SweepState) (block size : Nat) : SweepState :=
  if s.prevFree ≠ 0 then
    { s with
      mem := wr s.mem (s.prevFree + 8) (blockSize s.mem s.prevFree + size)
      cluster := s.cluster.clearBlockStart (block - s.cluster.base) }
  else
    { s with
      mem := wr (wr (wr s.mem block 0) (block + 8) size) (block + headerSize) s.cluster.freeList
      cluster := { s.cluster with freeList := block }
      prevFree := block }

/-- Keep a marked block: clear its mark and end the current run of free blocks. -/
def SweepState.keep (s : SweepState) (block size : Nat) : SweepState :=
  { s with
    mem := wr s.mem block (clearMark (tagOf s.mem block))
    stats := { s.stats with
      liveBlocks := s.stats.liveBlocks + 1, bytesLive := s.stats.bytesLive + size }
    prevFree := 0 }

def sweepFrom (descs : Nat → TypeDesc) : Nat → Nat → SweepState → SweepState
  | 0, _, s => s
  | fuel + 1, offset, s =>
    if s.cluster.bump ≤ offset then s
    else
      let block := s.cluster.base + offset
      let size := blockSize s.mem block
      if size < minBlock ∨ s.cluster.bump < offset + size then s
      else
        let tag := tagOf s.mem block
        let s :=
          if ¬ isFree tag ∧ isMarked tag then s.keep block size
          else (if ¬ isFree tag then s.retire descs block size else s).release block size
        sweepFrom descs fuel (offset + size) s

def clusterSweep (descs : Nat → TypeDesc) (m : Mem) (c : Cluster) (reg : Registry)
    (pending : List (Nat × Nat)) : SweepState :=
  sweepFrom descs c.bump 0
    { mem := m, cluster := { c with freeList := 0 }, reg, pending, stats := {}, prevFree := 0 }

structure CollectSummary where
  rootsMarked : Nat := 0
  blocksFreed : Nat := 0
  bytesFreed : Nat := 0
  liveBlocks : Nat := 0
  bytesLive : Nat := 0
deriving Repr, DecidableEq

def CollectSummary.add (s : CollectSummary) (t : SweepStats) : CollectSummary :=
  { s with
    blocksFreed := s.blocksFreed + t.blocksFreed, bytesFreed := s.bytesFreed + t.bytesFreed
    liveBlocks := s.liveBlocks + t.liveBlocks, bytesLive := s.bytesLive + t.bytesLive }

/-- Sweep the clusters in order. -/
def sweepAll (descs : Nat → TypeDesc) :
    List Cluster → Mem → Registry → List (Nat × Nat) → CollectSummary →
      Mem × List Cluster × Registry × List (Nat × Nat) × CollectSummary
  | [], m, reg, pending, sum => (m, [], reg, pending, sum)
  | c :: cs, m, reg, pending, sum =>
    let s := clusterSweep descs m c reg pending
    let (m, cs, reg, pending, sum) := sweepAll descs cs s.mem s.reg s.pending (sum.add s.stats)
    (m, s.cluster :: cs, reg, pending, sum)

/-- `run_collect_cycle`: clear the marks, mark from the stacks and the module roots, sweep.
`none` only if a mark loop runs out of `fuel`. -/
def runCollectCycle (fuel : Nat) (descs : Nat → TypeDesc) (h : Heap) (mutators : List Mutator) :
    Option (Heap × CollectSummary) :=
  let m := clearMarks h.mem h.clusters
  match markWords fuel h.typeDescs descs h.clusters (mutators.flatMap Mutator.rootWords) m 0 with
  | none => none
  | some (m, n) =>
    match markSlots fuel h.typeDescs descs h.moduleSlots m n with
    | none => none
    | some (m, n) =>
      let (m, cs, reg, pending, sum) :=
        sweepAll descs h.clusters m h.typeDescs [] { rootsMarked := n }
      some ({ h with
        mem := m, clusters := cs, typeDescs := reg
        pendingFinalizers := h.pendingFinalizers ++ pending }, sum)

/-! ## Allocation -/

/-- Machine addition of sizes wraps. -/
def alignUp (n : Nat) : Nat := (n + (blockAlign - 1)) % 2 ^ 64 / blockAlign * blockAlign

def totalBlockSize (payload : Nat) : Nat := max (alignUp ((headerSize + payload) % 2 ^ 64)) minBlock

def tryAllocInClusters (m : Mem) (total : Nat) :
    List Cluster → Option (Mem × List Cluster × Nat × AllocPath)
  | [] => none
  | c :: cs =>
    match c.tryAlloc m total with
    | some (m, c, block, path) => some (m, c :: cs, block, path)
    | none =>
      match tryAllocInClusters m total cs with
      | some (m, cs, block, path) => some (m, c :: cs, block, path)
      | none => none

/-- What the surroundings decide during one allocation: whether each of the two possible collections
found every mutator parked in time (otherwise it is abandoned), the base address the operating
system gives a new cluster, and the fuel of the mark loops. -/
structure AllocEnv where
  parked₁ : Bool
  parked₂ : Bool
  newBase : Nat
  fuel : Nat
deriving Repr, DecidableEq

/-- `collect_stw` as the heap sees it: abandoned when not every mutator parked, otherwise one cycle
whose finalizers are handed to the caller. -/
def collectStw (fuel : Nat) (descs : Nat → TypeDesc) (parked : Bool) (h : Heap)
    (mutators : List Mutator) : Option (Heap × List (Nat × Nat)) :=
  if ¬ parked then some (h, [])
  else
    match runCollectCycle fuel descs h mutators with
    | none => none
    | some (h, _) => some ({ h with pendingFinalizers := [], pressure := 0 }, h.pendingFinalizers)

/-- Push a new cluster and allocate in it. -/
def growAlloc (h : Heap) (base total : Nat) : Option (Heap × Nat) :=
  let c := Cluster.new base total
  let m := Mem.fill h.mem c.base c.size
  match c.tryAlloc m total with
  | none => none
  | some (m, c, block, _) => some ({ h with mem := m, clusters := h.clusters ++ [c] }, block)

def allocUnderLock (descs : Nat → TypeDesc) (env : AllocEnv) (h : Heap) (mutators : List Mutator)
    (total : Nat) : Option (Heap × Nat) :=
  match tryAllocInClusters h.mem total h.clusters with
  | some (m, cs, block, _) => some ({ h with mem := m, clusters := cs }, block)
  | none =>
    match collectStw env.fuel descs env.parked₂ h mutators with
    | none => none
    | some (h, _) =>
      match tryAllocInClusters h.mem total h.clusters with
      | some (m, cs, block, _) => some ({ h with mem := m, clusters := cs }, block)
      | none => growAlloc h env.newBase total

/-- The header `nm2_new_rec` writes once a block has been found, and the registry count. -/
def finishRec (descs : Nat → TypeDesc) (h : Heap) (block tag total : Nat) : Heap :=
  { h with
    mem := wr (wr h.mem block tag) (block + 8) total
    typeDescs := h.typeDescs.inc descs tag
    pressure := (h.pressure + total) % 2 ^ 64 }

/-- The collection `nm2_new_rec` starts when the bytes allocated since the last one reach the
threshold. -/
def relievePressure (descs : Nat → TypeDesc) (threshold : Nat) (env : AllocEnv) (h : Heap)
    (mutators : List Mutator) (total : Nat) : Option (Heap × List (Nat × Nat)) :=
  if threshold ≤ min (h.pressure + total) (2 ^ 64 - 1) then
    collectStw env.fuel descs env.parked₁ { h with pressure := 0 } mutators
  else some (h, [])

/-- The bytes `nm2_new_rec` asks for: the descriptor's size as an unsigned word, with the header. -/
def recSize (descs : Nat → TypeDesc) (tag : Nat) : Nat :=
  totalBlockSize ((descs tag).size % 2 ^ 64).toNat

/-- `nm2_new_rec`: the new heap and the payload it returns. -/
def nm2NewRec (descs : Nat → TypeDesc) (threshold : Nat) (env : AllocEnv) (h : Heap)
    (mutators : List Mutator) (tag : Nat) : Option (Heap × Nat) :=
  let total := recSize descs tag
  match relievePressure descs threshold env h mutators total with
  | none => none
  | some (h, _) =>
    match allocUnderLock descs env h mutators total with
    | none => none
    | some (h, block) => some (finishRec descs h block tag total, block + headerSize)

end NewM2.Gc
