import NewM2.Lib.Chain
import NewM2.Lib.DList
import NewM2.Lib.Tiling
import NewM2.M2Heap.Words

/-! # The invariant of the Modula-2 heap

Between its sentinel and its first 16 bytes a chunk is tiled by its blocks. While an operation is under
way a block may be off the free list though its header says free (`held`), and the block behind one may
not know its size (`stale`). -/

namespace NewM2.M2Heap

/-- What is known of a heap. `bytes` are the sizes of the chunks; blocks go by their headers; `freed` are the blocks that were freed since the
last allocation. -/
structure Ghost where
  chunks : List Nat
  blocks : Nat → List Nat
  bytes : Nat → Nat
  free : List Nat
  freed : List Nat
  live : List Nat
  used : Nat
  held : Nat → Prop
  stale : Nat

def chunkBytes (m : Mem) (c : Nat) : Nat := wget m (c + 8)

/-- The header of the sentinel. -/
def sentOf (m : Mem) (c : Nat) : Nat := c + chunkBytes m c - 16

namespace Ghost

def Block (g : Ghost) (b : Nat) : Prop := ∃ c ∈ g.chunks, b ∈ g.blocks c

/-- A freed block is still free, or part of a free block that starts before it. -/
def FreedAt (g : Ghost) (m : Mem) (b : Nat) : Prop :=
  blkAlloc m b = false ∧ ∃ a, g.Block a ∧ blkAlloc m a = false ∧
    (a = b ∨ a + 32 ≤ b ∧ b + 16 ≤ a + blkSize m a ∧ 16 ∣ b)

end Ghost

structure ChunkInv (m : Mem) (g : Ghost) (c : Nat) : Prop where
  page : 4096 ∣ c
  pos : 0 < c
  size : chunkBytes m c = g.bytes c
  bytes : 16 ∣ chunkBytes m c
  large : 64 ≤ chunkBytes m c
  top : c + chunkBytes m c ≤ 2 ^ 64
  tiled : Tiled (blkSize m) (c + 16) (sentOf m c) (g.blocks c)
  min : ∀ b ∈ g.blocks c, 32 ≤ blkSize m b
  first : wget m (c + 16 + 8) = 0
  prev : ∀ b ∈ g.blocks c, b ≠ g.stale → wget m (b + blkSize m b + 8) = blkSize m b
  sentinel : wget m (sentOf m c) = 17
  apart : ∀ b ∈ g.blocks c, ¬ g.held b → ¬ g.held (b + blkSize m b) → blkAlloc m b = false →
    blkAlloc m (b + blkSize m b) = true

structure HeapInv (h : Heap) (g : Ghost) : Prop where
  chunks : Chain (wget h.mem) h.gFirstChunk g.chunks
  separate : ∀ c ∈ g.chunks, ∀ d ∈ g.chunks, c ≠ d →
    c + chunkBytes h.mem c ≤ d ∨ d + chunkBytes h.mem d ≤ c
  chunk : ∀ c ∈ g.chunks, ChunkInv h.mem g c
  list : DChain (fNext h.mem) (fPrev h.mem) 0 h.gFreeHead g.free
  nodup : g.free.Nodup
  free : ∀ b, b ∈ g.free ↔ g.Block b ∧ blkAlloc h.mem b = false ∧ ¬ g.held b
  freed : ∀ b ∈ g.freed, g.FreedAt h.mem b
  liveNodup : g.live.Nodup
  live : ∀ b, b ∈ g.live ↔ g.Block b ∧ blkAlloc h.mem b = true
  used : g.used = (g.live.map (blkSize h.mem)).sum

namespace ChunkInv
variable {m m' : Mem} {g : Ghost} {a b c : Nat}

theorem range (hc : ChunkInv m g c) (hb : b ∈ g.blocks c) :
    c + 16 ≤ b ∧ b + blkSize m b + 16 ≤ c + chunkBytes m c ∧ 32 ≤ blkSize m b := by
  obtain ⟨hlo, hhi, -⟩ := hc.tiled.mem_range hb
  have hmin := hc.min b hb
  have hlarge := hc.large
  unfold sentOf at hhi
  exact ⟨hlo, by omega, hmin⟩

theorem page_le (hc : ChunkInv m g c) : 4096 ≤ c := Nat.le_of_dvd hc.pos hc.page

theorem aligned (hc : ChunkInv m g c) : 16 ∣ sentOf m c ∧ ∀ b ∈ g.blocks c, 16 ∣ b :=
  hc.tiled.dvd (fun _ _ => dvd_blkSize) (Nat.dvd_add ((by decide : 16 ∣ 4096).trans hc.page) (by decide))

theorem next (hc : ChunkInv m g c) (hb : b ∈ g.blocks c) :
    b + blkSize m b = sentOf m c ∨ b + blkSize m b ∈ g.blocks c := hc.tiled.next hb

end ChunkInv

namespace HeapInv
variable {h : Heap} {g : Ghost} {m' : Mem} {a b c d x : Nat}

theorem range (hi : HeapInv h g) (hb : g.Block b) :
    16 ∣ b ∧ 4112 ≤ b ∧ b + blkSize h.mem b + 16 ≤ 2 ^ 64 ∧ 32 ≤ blkSize h.mem b := by
  obtain ⟨c, hc, hbc⟩ := hb
  have hchunk := hi.chunk c hc
  obtain ⟨hlo, hhi, hmin⟩ := hchunk.range hbc
  have := hchunk.page_le
  have := hchunk.top
  exact ⟨hchunk.aligned.2 b hbc, by omega, by omega, hmin⟩

theorem chunk_eq (hi : HeapInv h g) (hc : c ∈ g.chunks) (hd : d ∈ g.chunks)
    (hcd : ¬ (c + chunkBytes h.mem c ≤ d ∨ d + chunkBytes h.mem d ≤ c)) : c = d := by
  by_contra hne
  exact hcd (hi.separate c hc d hd hne)

theorem disjoint (hi : HeapInv h g) (ha : g.Block a) (hb : g.Block b) (hne : a ≠ b) :
    a + blkSize h.mem a ≤ b ∨ b + blkSize h.mem b ≤ a := by
  obtain ⟨c, hc, hac⟩ := ha
  obtain ⟨d, hd, hbd⟩ := hb
  have hra := (hi.chunk c hc).range hac
  have hrb := (hi.chunk d hd).range hbd
  by_cases hcd : c + chunkBytes h.mem c ≤ d ∨ d + chunkBytes h.mem d ≤ c
  · omega
  · obtain rfl := hi.chunk_eq hc hd hcd
    exact (hi.chunk c hc).tiled.disjoint hac hbd hne

/-- The first 16 bytes of a chunk and its sentinel are in no block. -/
theorem chunk_apart (hi : HeapInv h g) (hc : c ∈ g.chunks) (hb : g.Block b) :
    (b + blkSize h.mem b + 16 ≤ c ∨ c + 16 ≤ b) ∧
      (b + blkSize h.mem b ≤ sentOf h.mem c ∨ sentOf h.mem c + 16 ≤ b) := by
  obtain ⟨d, hd, hbd⟩ := hb
  have hr := (hi.chunk d hd).range hbd
  have := (hi.chunk c hc).large
  unfold sentOf
  by_cases hcd : c + chunkBytes h.mem c ≤ d ∨ d + chunkBytes h.mem d ≤ c
  · omega
  · obtain rfl := hi.chunk_eq hc hd hcd
    omega

/-- Behind a block comes another, or a sentinel, which is allocated. -/
theorem next (hi : HeapInv h g) (hb : g.Block b) :
    (∃ c ∈ g.chunks, b + blkSize h.mem b = sentOf h.mem c) ∨ g.Block (b + blkSize h.mem b) := by
  obtain ⟨c, hc, hbc⟩ := hb
  exact ((hi.chunk c hc).next hbc).imp (fun h => ⟨c, hc, h⟩) fun h => ⟨c, hc, h⟩

theorem sent_alloc (hi : HeapInv h g) (hc : c ∈ g.chunks) : blkAlloc h.mem (sentOf h.mem c) = true := by
  rw [blkAlloc_eq, (hi.chunk c hc).sentinel]
  rfl

theorem block_next (hi : HeapInv h g) (hb : g.Block b)
    (hfree : blkAlloc h.mem (b + blkSize h.mem b) = false) : g.Block (b + blkSize h.mem b) := by
  refine (hi.next hb).resolve_left ?_
  rintro ⟨c, hc, heq⟩
  rw [heq, hi.sent_alloc hc] at hfree
  cases hfree

theorem mem_free (hi : HeapInv h g) (hb : b ∈ g.free) : g.Block b := ((hi.free b).1 hb).1

theorem free_ne_zero (hi : HeapInv h g) (hb : g.Block b) : b ≠ 0 := by
  have := (hi.range hb).2.1
  omega

theorem used_lt (hi : HeapInv h g) : g.used < 2 ^ 64 := by
  rw [hi.used]
  have hsum : (g.live.map (blkSize h.mem)).sum ≤ 2 ^ 64 - 4112 :=
    sum_le_of_disjoint hi.liveNodup
      (fun a ha b hb hne => hi.disjoint ((hi.live a).1 ha).1 ((hi.live b).1 hb).1 hne) fun a ha => by
        have := hi.range ((hi.live a).1 ha).1
        omega
  omega

theorem size_le_used (hi : HeapInv h g) (hb : b ∈ g.live) : blkSize h.mem b ≤ g.used := by
  have hsum : blkSize h.mem b + ((g.live.erase b).map (blkSize h.mem)).sum =
      (g.live.map (blkSize h.mem)).sum := List.sum_map_erase _ hb
  have := hi.used
  omega

/-! ## Bytes of payloads -/

/-- Only payloads changed. -/
def OffPayload (g : Ghost) (m m' : Mem) : Prop :=
  ∀ x, (∀ b, g.Block b → x < b + 16 ∨ b + blkSize m b ≤ x) → m' x = m x

theorem OffPayload.block (hi : HeapInv h g) (hm : OffPayload g h.mem m') (hb : g.Block b) :
    wget m' b = wget h.mem b ∧ wget m' (b + 8) = wget h.mem (b + 8) := by
  have hsame : ∀ x, b ≤ x → x < b + 16 → m' x = h.mem x := by
    intro x h1 h2
    refine hm x fun a ha => ?_
    by_cases hab : a = b
    · subst hab
      exact .inl h2
    · have := hi.disjoint ha hb hab
      have := (hi.range hb).2.2.2
      omega
  exact ⟨wget_congr fun x h1 h2 => hsame x (by omega) (by omega),
    wget_congr fun x h1 h2 => hsame x (by omega) (by omega)⟩

theorem OffPayload.chunk (hi : HeapInv h g) (hm : OffPayload g h.mem m') (hc : c ∈ g.chunks) :
    wget m' c = wget h.mem c ∧ chunkBytes m' c = chunkBytes h.mem c := by
  have hsame : ∀ x, c ≤ x → x < c + 16 → m' x = h.mem x := by
    intro x h1 h2
    refine hm x fun a ha => ?_
    have := (hi.chunk_apart hc ha).1
    omega
  exact ⟨wget_congr fun x h1 h2 => hsame x (by omega) (by omega),
    wget_congr fun x h1 h2 => hsame x (by omega) (by omega)⟩

theorem OffPayload.sent (hi : HeapInv h g) (hm : OffPayload g h.mem m') (hc : c ∈ g.chunks) :
    wget m' (sentOf h.mem c) = wget h.mem (sentOf h.mem c) ∧
      wget m' (sentOf h.mem c + 8) = wget h.mem (sentOf h.mem c + 8) := by
  have hsame : ∀ x, sentOf h.mem c ≤ x → x < sentOf h.mem c + 16 → m' x = h.mem x := by
    intro x h1 h2
    refine hm x fun a ha => ?_
    have := (hi.chunk_apart hc ha).2
    omega
  exact ⟨wget_congr fun x h1 h2 => hsame x (by omega) (by omega),
    wget_congr fun x h1 h2 => hsame x (by omega) (by omega)⟩

/-- Headers behind blocks are headers of blocks or of sentinels. -/
theorem OffPayload.next (hi : HeapInv h g) (hm : OffPayload g h.mem m') (hb : g.Block b) :
    wget m' (b + blkSize h.mem b) = wget h.mem (b + blkSize h.mem b) ∧
      wget m' (b + blkSize h.mem b + 8) = wget h.mem (b + blkSize h.mem b + 8) := by
  rcases hi.next hb with ⟨c, hc, heq⟩ | hblock
  · rw [heq]
    exact hm.sent hi hc
  · exact hm.block hi hblock

/-- The same blocks with the same sizes. -/
theorem rebuild (hi : HeapInv h g) {head : Nat} {g' : Ghost} (hchunks : g'.chunks = g.chunks)
    (hblocks : g'.blocks = g.blocks) (hghost : g'.bytes = g.bytes)
    (hsize : ∀ y, g.Block y → blkSize m' y = blkSize h.mem y)
    (hwords : ∀ c ∈ g.chunks, wget m' c = wget h.mem c ∧ chunkBytes m' c = chunkBytes h.mem c ∧
      wget m' (sentOf h.mem c) = wget h.mem (sentOf h.mem c) ∧
      wget m' (c + 16 + 8) = wget h.mem (c + 16 + 8))
    (hprev : ∀ y, g.Block y → y ≠ g'.stale →
      wget m' (y + blkSize h.mem y + 8) = blkSize h.mem y)
    (hapart : ∀ y, g.Block y → ¬ g'.held y → ¬ g'.held (y + blkSize h.mem y) → blkAlloc m' y = false →
      blkAlloc m' (y + blkSize h.mem y) = true)
    (hlist : DChain (fNext m') (fPrev m') 0 head g'.free) (hnodup : g'.free.Nodup)
    (hfree : ∀ y, y ∈ g'.free ↔ g.Block y ∧ blkAlloc m' y = false ∧ ¬ g'.held y)
    (hfreed : ∀ y ∈ g'.freed, g'.FreedAt m' y) (hliveNodup : g'.live.Nodup)
    (hlive : ∀ y, y ∈ g'.live ↔ g.Block y ∧ blkAlloc m' y = true)
    (hused : g'.used = (g'.live.map (blkSize h.mem)).sum) :
    HeapInv { h with mem := m', gFreeHead := head } g' := by
  have hblock : ∀ y, g'.Block y ↔ g.Block y := fun y => by
    unfold Ghost.Block
    rw [hchunks, hblocks]
  refine
    { chunks := by
        rw [hchunks]
        exact hi.chunks.congr fun c hc => (hwords c hc).1
      separate := fun c hc d hd hne => ?_
      chunk := fun c hc => ?_
      list := hlist
      nodup := hnodup
      free := fun y => (hfree y).trans (and_congr_left fun _ => (hblock y).symm)
      freed := hfreed
      liveNodup := hliveNodup
      live := fun y => (hlive y).trans (and_congr_left fun _ => (hblock y).symm)
      used := hused.trans (congrArg List.sum (List.map_congr_left fun y hy =>
        (hsize y ((hlive y).1 hy).1).symm)) }
  · rw [hchunks] at hc hd
    change c + chunkBytes m' c ≤ d ∨ d + chunkBytes m' d ≤ c
    rw [(hwords c hc).2.1, (hwords d hd).2.1]
    exact hi.separate c hc d hd hne
  · rw [hchunks] at hc
    have hchunk := hi.chunk c hc
    obtain ⟨-, hbytes, hsent, hfirst⟩ := hwords c hc
    have hmem : ∀ y ∈ g'.blocks c, y ∈ g.blocks c ∧ g.Block y := fun y hy =>
      ⟨hblocks ▸ hy, c, hc, hblocks ▸ hy⟩
    have hsentOf : sentOf m' c = sentOf h.mem c := by
      unfold sentOf
      rw [hbytes]
    change ChunkInv m' g' c
    exact
      { page := hchunk.page
        pos := hchunk.pos
        size := by rw [hbytes, hchunk.size, hghost]
        bytes := hbytes ▸ hchunk.bytes
        large := hbytes ▸ hchunk.large
        top := hbytes ▸ hchunk.top
        tiled := by
          rw [hblocks, hsentOf]
          exact hchunk.tiled.congr fun y hy => hsize y ⟨c, hc, hy⟩
        min := fun y hy => by
          obtain ⟨hy, hyb⟩ := hmem y hy
          rw [hsize y hyb]
          exact hchunk.min y hy
        first := hfirst.trans hchunk.first
        prev := fun y hy hne => by
          rw [hsize y (hmem y hy).2]
          exact hprev y (hmem y hy).2 hne
        sentinel := by
          rw [hsentOf, hsent]
          exact hchunk.sentinel
        apart := fun y hy hny hnn hf => by
          rw [hsize y (hmem y hy).2] at hnn ⊢
          exact hapart y (hmem y hy).2 hny hnn hf }

/-- Another free list over the same blocks, when only payloads changed. -/
theorem payload (hi : HeapInv h g) (hm : OffPayload g h.mem m') {head : Nat} {fl : List Nat}
    {held : Nat → Prop} (hlist : DChain (fNext m') (fPrev m') 0 head fl) (hnodup : fl.Nodup)
    (hfree : ∀ b, b ∈ fl ↔ g.Block b ∧ blkAlloc h.mem b = false ∧ ¬ held b)
    (hfreed : ∀ b ∈ g.freed, wget m' b = wget h.mem b)
    (hapart : ∀ b, g.Block b → ¬ held b → ¬ held (b + blkSize h.mem b) → blkAlloc h.mem b = false →
      blkAlloc h.mem (b + blkSize h.mem b) = true) :
    HeapInv { h with mem := m', gFreeHead := head } { g with free := fl, held := held } := by
  have hsize : ∀ y, g.Block y → blkSize m' y = blkSize h.mem y := fun y hy =>
    blkSize_congr (hm.block hi hy).1
  have halloc : ∀ y, g.Block y → blkAlloc m' y = blkAlloc h.mem y := fun y hy =>
    blkAlloc_congr (hm.block hi hy).1
  refine hi.rebuild rfl rfl rfl hsize (fun c hc => ?_) (fun y hy hne => ?_) (fun y hy hny hnn hf => ?_) hlist
    hnodup (fun y => (hfree y).trans (and_congr_right fun hy => by rw [halloc y hy])) (fun b hb => ?_)
    hi.liveNodup (fun y => (hi.live y).trans (and_congr_right fun hy => by rw [halloc y hy])) hi.used
  · obtain ⟨hnext, hbytes⟩ := hm.chunk hi hc
    refine ⟨hnext, hbytes, (hm.sent hi hc).1, ?_⟩
    have hchunk := hi.chunk c hc
    rcases hchunk.tiled.first with heq | hmem
    · have := hchunk.large
      unfold sentOf at heq
      omega
    · exact (hm.block hi ⟨c, hc, hmem⟩).2
  · obtain ⟨c, hc, hyc⟩ := hy
    rw [(hm.next hi ⟨c, hc, hyc⟩).2]
    exact (hi.chunk c hc).prev y hyc hne
  · rw [blkAlloc_congr (hm.next hi hy).1]
    exact hapart y hy hny hnn (halloc y hy ▸ hf)
  · obtain ⟨hf, a, ha, haf, hab⟩ := hi.freed b hb
    refine ⟨(blkAlloc_congr (hfreed b hb)).trans hf, a, ha, (halloc a ha).trans haf, ?_⟩
    rwa [hsize a ha]

end HeapInv

end NewM2.M2Heap
