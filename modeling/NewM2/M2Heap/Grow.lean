import NewM2.M2Heap.Allocate

/-! # GrowHeap, and Allocate as a whole -/

namespace NewM2.M2Heap

/-! ## What is asked for -/

/-- Nothing is asked for when rounding up wraps. -/
theorem growBytes_spec (n : Nat) :
    growBytes n < 2 ^ 64 ∧ 65536 ∣ growBytes n ∧ (growBytes n = 0 ∨ defaultChunk ≤ growBytes n) := by
  unfold growBytes
  split
  next hlarge =>
    unfold roundUp pageUp
    have hx : cadd (cadd (cadd n chunkMeta) sentinel) 0xFFFF < 2 ^ 64 := Nat.mod_lt _ (by decide)
    rw [and_pageMask hx]
    unfold defaultChunk at *
    refine ⟨by omega, Nat.dvd_mul_left _ _, ?_⟩
    have hc : cadd (cadd n chunkMeta) sentinel < 2 ^ 64 := Nat.mod_lt _ (by decide)
    generalize cadd (cadd n chunkMeta) sentinel = x at *
    unfold cadd at *
    omega
  next => exact ⟨by decide, by decide, .inr le_rfl⟩

/-- Without a wrap the chunk has room for the block. -/
theorem le_growBytes {n : Nat} (hn : n + 2 ^ 17 ≤ 2 ^ 64) : n + 32 ≤ growBytes n := by
  have hsum : cadd (cadd n chunkMeta) sentinel = n + 32 := by
    unfold chunkMeta sentinel
    rw [cadd_eq (a := n) (by omega), cadd_eq (by omega)]
  unfold growBytes
  rw [hsum]
  split
  · unfold roundUp pageUp
    rw [cadd_eq (by omega), and_pageMask (by omega)]
    omega
  · omega

/-! ## The new chunk -/

/-- What a new chunk of `bytes` bytes has in it. -/
structure ChunkWrites (m m' : Mem) (base bytes first : Nat) : Prop where
  next : wget m' base = first
  size : wget m' (base + 8) = bytes
  header : wget m' (base + 16) = bytes - 32
  headerPrev : wget m' (base + 16 + 8) = 0
  sent : wget m' (base + bytes - 16) = 17
  sentPrev : wget m' (base + bytes - 16 + 8) = bytes - 32
  zero : ∀ x, base + 32 ≤ x → x < base + bytes - 16 → m' x = 0
  same : ∀ x, x < base ∨ base + bytes ≤ x → m' x = m x

theorem chunkWrites {m : Mem} {base bytes first : Nat} (hfirst : first < 2 ^ 64) (hlarge : 64 ≤ bytes)
    (hlt : bytes < 2 ^ 64) (htop : base + bytes ≤ 2 ^ 64) :
    ChunkWrites m (setHdr (setHdr (wput (wput (m.fill base bytes) base first) (off base 8) bytes)
      (off base chunkMeta) (csub (csub bytes chunkMeta) sentinel) false 0)
      (off base (csub bytes sentinel)) sentinel true (csub (csub bytes chunkMeta) sentinel))
      base bytes first := by
  have hsize : csub (csub bytes chunkMeta) sentinel = bytes - 32 := by
    unfold chunkMeta sentinel
    rw [csub_eq (a := bytes) (by omega) hlt, csub_eq (by omega) (by omega)]
    omega
  have hsent : off base (csub bytes sentinel) = base + bytes - 16 := by
    unfold sentinel
    rw [csub_eq (by omega) hlt, off_eq (by omega)]
    omega
  have hor : sentinel ||| allocFlag = 17 := by decide
  rw [hsize, hsent, off_eq (by omega), off_eq (by unfold chunkMeta; omega)]
  unfold setHdr chunkMeta
  rw [if_pos rfl, if_neg (by decide), off_eq (by omega), off_eq (by omega), hor]
  refine ⟨?_, ?_, ?_, ?_, ?_, ?_, fun x h1 h2 => ?_, fun x hx => ?_⟩
  · rw [wget_wput_of_apart (by omega), wget_wput_of_apart (by omega), wget_wput_of_apart (by omega),
      wget_wput_of_apart (by omega), wget_wput_of_apart (by omega), wget_wput_self hfirst]
  · rw [wget_wput_of_apart (by omega), wget_wput_of_apart (by omega), wget_wput_of_apart (by omega),
      wget_wput_of_apart (by omega), wget_wput_self hlt]
  · rw [wget_wput_of_apart (by omega), wget_wput_of_apart (by omega), wget_wput_of_apart (by omega),
      wget_wput_self (by omega)]
  · rw [wget_wput_of_apart (by omega), wget_wput_of_apart (by omega), wget_wput_self (by omega)]
  · rw [wget_wput_of_apart (by omega), wget_wput_self (by omega)]
  · exact wget_wput_self (by omega)
  · rw [wput_of_apart (by omega), wput_of_apart (by omega), wput_of_apart (by omega),
      wput_of_apart (by omega), wput_of_apart (by omega), wput_of_apart (by omega),
      Mem.fill_of_mem _ (by omega) (by omega)]
  · rw [wput_of_apart (by omega), wput_of_apart (by omega), wput_of_apart (by omega),
      wput_of_apart (by omega), wput_of_apart (by omega), wput_of_apart (by omega),
      Mem.fill_of_disjoint _ (by omega)]

namespace Ready
variable {h : Heap} {g : Ghost} {base bytes n : Nat} {m' : Mem}

theorem gFirstChunk_lt (hi : HeapInv h g) : h.gFirstChunk < 2 ^ 64 := by
  have hchain := hi.chunks
  revert hchain
  cases hl : g.chunks with
  | nil =>
    intro hchain
    have hz : h.gFirstChunk = 0 := hchain
    omega
  | cons c l =>
    rintro ⟨rfl, -⟩
    have hchunk := hi.chunk _ (hl ▸ List.mem_cons_self)
    have := hchunk.top
    have := hchunk.large
    omega

/-- One more chunk, with one block in it that is not on the list yet. -/
theorem addChunk (hr : Ready h g) (hpage : 4096 ∣ base) (hpos : base ≠ 0) (hdvd : 16 ∣ bytes)
    (hlarge : 64 ≤ bytes) (hlt : bytes < 2 ^ 64) (htop : base + bytes ≤ 2 ^ 64)
    (hfresh : ∀ c ∈ g.chunks, c + g.bytes c ≤ base ∨ base + bytes ≤ c)
    (hw : ChunkWrites h.mem m' base bytes h.gFirstChunk) :
    HeapInv { h with mem := m', gFirstChunk := base }
      { g with
        chunks := base :: g.chunks, blocks := Function.update g.blocks base [base + 16]
        bytes := Function.update g.bytes base bytes, held := fun y => y = base + 16 } := by
  have hi := hr.inv
  have hfresh' : ∀ c ∈ g.chunks, c + chunkBytes h.mem c ≤ base ∨ base + bytes ≤ c := fun c hc => by
    rw [(hi.chunk c hc).size]
    exact hfresh c hc
  have hne : ∀ c ∈ g.chunks, c ≠ base := by
    intro c hc heq
    have := hfresh' c hc
    have := (hi.chunk c hc).large
    omega
  -- the old chunks
  have hold : ∀ c ∈ g.chunks, ∀ x, c ≤ x → x < c + chunkBytes h.mem c → m' x = h.mem x := by
    intro c hc x h1 h2
    have := hfresh' c hc
    exact hw.same x (by omega)
  have hword : ∀ c ∈ g.chunks, ∀ a, c ≤ a → a + 8 ≤ c + chunkBytes h.mem c → wget m' a = wget h.mem a :=
    fun c hc a h1 h2 => wget_congr fun x h3 h4 => hold c hc x (by omega) (by omega)
  have hbytes : ∀ c ∈ g.chunks, chunkBytes m' c = chunkBytes h.mem c := fun c hc => by
    have := (hi.chunk c hc).large
    exact hword c hc _ (by omega) (by omega)
  have hblock : ∀ y, (∃ c ∈ base :: g.chunks, y ∈ Function.update g.blocks base [base + 16] c) ↔
      g.Block y ∨ y = base + 16 := by
    intro y
    constructor
    · rintro ⟨c, hc, hy⟩
      rcases List.mem_cons.1 hc with rfl | hc
      · rw [Function.update_self, List.mem_singleton] at hy
        exact .inr hy
      · rw [Function.update_of_ne (hne c hc)] at hy
        exact .inl ⟨c, hc, hy⟩
    · rintro (⟨c, hc, hy⟩ | rfl)
      · refine ⟨c, List.mem_cons_of_mem _ hc, ?_⟩
        rwa [Function.update_of_ne (hne c hc)]
      · refine ⟨base, List.mem_cons_self, ?_⟩
        rw [Function.update_self]
        exact List.mem_singleton_self _
  have hkeep : ∀ y, g.Block y → wget m' y = wget h.mem y ∧ wget m' (y + 16) = wget h.mem (y + 16) ∧
      wget m' (y + 24) = wget h.mem (y + 24) ∧ (y + 32 ≤ base ∨ base + bytes ≤ y) := by
    rintro y ⟨c, hc, hyc⟩
    have := (hi.chunk c hc).range hyc
    have := hfresh' c hc
    exact ⟨hword c hc _ (by omega) (by omega), hword c hc _ (by omega) (by omega),
      hword c hc _ (by omega) (by omega), by omega⟩
  have hlink : ∀ y ∈ g.free, fNext m' y = fNext h.mem y ∧ fPrev m' y = fPrev h.mem y := by
    intro y hy
    have hyB := hi.mem_free hy
    unfold fNext fPrev
    rw [(hi.off_link hyB).1, (hi.off_link hyB).2]
    exact ⟨(hkeep y hyB).2.1, (hkeep y hyB).2.2.1⟩
  have hsizes : ∀ y, g.Block y → blkSize m' y = blkSize h.mem y := fun y hy => blkSize_congr (hkeep y hy).1
  have hallocs : ∀ y, g.Block y → blkAlloc m' y = blkAlloc h.mem y := fun y hy =>
    blkAlloc_congr (hkeep y hy).1
  have hnot : ¬ g.Block (base + 16) := by
    intro hy
    have := (hkeep _ hy).2.2.2
    omega
  -- the new chunk
  obtain ⟨hsizeb, hallocb⟩ := header_of_free (by omega : 16 ∣ bytes - 32) hw.header
  have hbase : chunkBytes m' base = bytes := hw.size
  have hsent : sentOf m' base = base + bytes - 16 := by
    unfold sentOf
    rw [hbase]
  have hsentAlloc : blkAlloc m' (base + 16 + (bytes - 32)) = true := by
    rw [show base + 16 + (bytes - 32) = base + bytes - 16 by omega, blkAlloc_eq, hw.sent]
    rfl
  have hnew : ChunkInv m'
      { g with
        chunks := base :: g.chunks, blocks := Function.update g.blocks base [base + 16]
        bytes := Function.update g.bytes base bytes, held := fun y => y = base + 16 } base := by
    have hmem : ∀ y ∈ Function.update g.blocks base [base + 16] base, y = base + 16 := by
      intro y hy
      rwa [Function.update_self, List.mem_singleton] at hy
    exact
      { page := hpage
        pos := Nat.pos_of_ne_zero hpos
        size := hbase.trans (Function.update_self base bytes g.bytes).symm
        bytes := hbase ▸ hdvd
        large := hbase ▸ hlarge
        top := hbase ▸ htop
        tiled := by
          change Tiled (blkSize m') (base + 16) (sentOf m' base)
            (Function.update g.blocks base [base + 16] base)
          rw [Function.update_self, hsent]
          exact ⟨rfl, by omega, by rw [hsizeb]; exact (by omega : base + 16 + (bytes - 32) = base + bytes - 16)⟩
        min := fun y hy => by
          rw [hmem y hy, hsizeb]
          omega
        first := hw.headerPrev
        prev := fun y hy _ => by
          rw [hmem y hy, hsizeb, show base + 16 + (bytes - 32) + 8 = base + bytes - 16 + 8 by omega]
          exact hw.sentPrev
        sentinel := by
          rw [hsent]
          exact hw.sent
        apart := fun y hy hny _ _ => absurd (hmem y hy) hny }
  refine
    { chunks := ⟨rfl, hpos, ?_⟩
      separate := fun c hc d hd hcd => ?_
      chunk := fun c hc => ?_
      list := hi.list.congr (fun y hy => (hlink y hy).1) fun y hy => (hlink y hy).2
      nodup := hi.nodup
      free := fun y => ?_
      freed := fun y hy => ?_
      liveNodup := hi.liveNodup
      live := fun y => ?_
      used := hi.used.trans (congrArg List.sum (List.map_congr_left fun y hy =>
        (hsizes y ((hi.live y).1 hy).1).symm)) }
  · change Chain (wget m') (wget m' base) g.chunks
    rw [hw.next]
    refine hi.chunks.congr fun c hc => hword c hc c le_rfl ?_
    have := (hi.chunk c hc).large
    omega
  · change c + chunkBytes m' c ≤ d ∨ d + chunkBytes m' d ≤ c
    rcases List.mem_cons.1 hc with heq | hc' <;> rcases List.mem_cons.1 hd with heq' | hd'
    · exact absurd (heq.trans heq'.symm) hcd
    · rw [heq, hbase, hbytes d hd']
      exact (hfresh' d hd').symm
    · rw [heq', hbase, hbytes c hc']
      exact hfresh' c hc'
    · rw [hbytes c hc', hbytes d hd']
      exact hi.separate c hc' d hd' hcd
  · rcases List.mem_cons.1 hc with rfl | hc
    · exact hnew
    · have hchunk := hi.chunk c hc
      have hframe : ChunkInv m'
          { g with
            chunks := base :: g.chunks, blocks := Function.update g.blocks base [base + 16]
            held := fun y => y = base + 16 } c :=
        hchunk.frame (hold c hc) (Function.update_of_ne (hne c hc) ..) rfl (fun x _ _ _ => hr.held x)
          fun x _ _ hx => hx
      exact
        { hframe with
          size := by
            rw [hbytes c hc, hchunk.size]
            exact (Function.update_of_ne (hne c hc) ..).symm }
  · change y ∈ g.free ↔ (∃ c ∈ base :: g.chunks, y ∈ Function.update g.blocks base [base + 16] c) ∧
      blkAlloc m' y = false ∧ ¬ y = base + 16
    rw [hi.free, hblock]
    constructor
    · rintro ⟨hy, hf, -⟩
      refine ⟨.inl hy, (hallocs y hy).trans hf, ?_⟩
      rintro rfl
      exact hnot hy
    · rintro ⟨hy, hf, hne⟩
      have hyB := hy.resolve_right hne
      exact ⟨hyB, (hallocs y hyB).symm.trans hf, hr.held y⟩
  · obtain ⟨hf, a, ha, haf, hay⟩ := hi.freed y hy
    have hyw : wget m' y = wget h.mem y := by
      obtain ⟨c, hc, hac⟩ := ha
      have := (hi.chunk c hc).range hac
      exact hword c hc y (by omega) (by omega)
    refine ⟨(blkAlloc_congr hyw).trans hf, a, (hblock a).2 (.inl ha), (hallocs a ha).trans haf, ?_⟩
    change a = y ∨ a + 32 ≤ y ∧ y + 16 ≤ a + blkSize m' a ∧ 16 ∣ y
    rwa [hsizes a ha]
  · change y ∈ g.live ↔ (∃ c ∈ base :: g.chunks, y ∈ Function.update g.blocks base [base + 16] c) ∧
      blkAlloc m' y = true
    rw [hi.live, hblock]
    constructor
    · exact fun hy => ⟨.inl hy.1, (hallocs y hy.1).trans hy.2⟩
    · rintro ⟨hy | rfl, hal⟩
      · exact ⟨hy, (hallocs y hy).symm.trans hal⟩
      · rw [hallocb] at hal
        cases hal

/-- `GrowHeap`, given a fresh region. -/
theorem growHeap_spec (hr : Ready h g) (hpage : 4096 ∣ base) (hpos : base ≠ 0) (hbytes : 0 < growBytes n)
    (htop : base + growBytes n ≤ 2 ^ 64)
    (hfresh : ∀ c ∈ g.chunks, c + g.bytes c ≤ base ∨ base + growBytes n ≤ c) :
    (h.growHeap n base).2 = true ∧
      Ready (h.growHeap n base).1
        { g with
          chunks := base :: g.chunks, blocks := Function.update g.blocks base [base + 16]
          bytes := Function.update g.bytes base (growBytes n), free := (base + 16) :: g.free } ∧
      blkSize (h.growHeap n base).1.mem (base + 16) = growBytes n - 32 ∧
      (∀ y, g.Block y → wget (h.growHeap n base).1.mem y = wget h.mem y) ∧
      ∀ x, base + 48 ≤ x → x < base + growBytes n - 16 → (h.growHeap n base).1.mem x = 0 := by
  obtain ⟨hlt, hdvd, hlarge⟩ := growBytes_spec n
  have hlarge' := hlarge.resolve_left (by omega)
  unfold defaultChunk at hlarge'
  have hw := chunkWrites (m := h.mem) (gFirstChunk_lt hr.inv) (by omega) hlt htop
  unfold Heap.growHeap
  dsimp only
  rw [if_neg hpos]
  have hfirst : off base chunkMeta = base + 16 := off_eq (by unfold chunkMeta; omega)
  generalize setHdr (setHdr _ (off base chunkMeta) _ false 0) _ sentinel true _ = m' at *
  rw [hfirst]
  have hadd := hr.addChunk hpage hpos (by omega) (by omega) hlt htop hfresh hw
  obtain ⟨hsizeb, hallocb⟩ := header_of_free (by omega : 16 ∣ growBytes n - 32) hw.header
  have hblock : ∃ c ∈ base :: g.chunks, base + 16 ∈ Function.update g.blocks base [base + 16] c := by
    refine ⟨base, List.mem_cons_self, ?_⟩
    rw [Function.update_self]
    exact List.mem_singleton_self _
  obtain ⟨hins, hlinks, -⟩ := hadd.insertFree_spec (b := base + 16) hblock rfl hallocb
    (by
      change blkAlloc m' (base + 16 + blkSize m' (base + 16)) = true
      rw [hsizeb, show base + 16 + (growBytes n - 32) = base + growBytes n - 16 by omega, blkAlloc_eq,
        hw.sent]
      rfl)
    (fun y hy hend => by
      have hap := (hadd.chunk_apart List.mem_cons_self hy).1
      have hmin := (hadd.range hy).2.2.2
      omega)
  have hheld : (fun y => y = base + 16 ∧ y ≠ base + 16) = g.held :=
    funext fun y => propext ⟨fun hy => absurd hy.1 hy.2, fun hy => absurd hy (hr.held y)⟩
  have hoff := hlinks.offPayload hadd
  refine ⟨rfl, ⟨?_, hr.held, hr.stale, hr.used⟩, ?_, fun y hy => ?_, fun x h1 h2 => ?_⟩
  · rw [hheld] at hins
    exact hins
  · exact (blkSize_congr (hoff.block hadd hblock).1).trans hsizeb
  · obtain ⟨c, hc, hyc⟩ := hy
    have hchunk := hr.inv.chunk c hc
    have := hchunk.range hyc
    have := hfresh c hc
    have hsize := hchunk.size
    have hne : c ≠ base := by
      rintro rfl
      have := hchunk.large
      omega
    have hyB : ∃ c ∈ base :: g.chunks, y ∈ Function.update g.blocks base [base + 16] c :=
      ⟨c, List.mem_cons_of_mem _ hc, by rwa [Function.update_of_ne hne]⟩
    exact (hoff.block hadd hyB).1.trans (wget_congr fun x h1 h2 => hw.same x (by omega))
  · refine (hlinks x fun y hy => ?_).trans (hw.zero x (by omega) h2)
    by_cases hyb : y = base + 16
    · exact .inr (by omega)
    · have hdis := hadd.disjoint hy hblock hyb
      have := (hadd.range hy).2.2.2
      change y + blkSize m' y ≤ base + 16 ∨ base + 16 + blkSize m' (base + 16) ≤ y at hdis
      change 32 ≤ blkSize m' y at this
      omega

end Ready

/-! ## Allocate -/

theorem blockNeedFor_spec {size blockNeed need : Nat}
    (h : Heap.blockNeedFor size = some (blockNeed, need)) :
    blockNeed = need + 16 ∧ 16 ∣ need ∧ 16 ≤ need ∧ size ≤ need ∧ need + 16 < 2 ^ 64 := by
  unfold Heap.blockNeedFor roundUp at h
  have hlt : cadd size 15 < 2 ^ 64 := Nat.mod_lt _ (by decide)
  rw [and_sizeMask hlt] at h
  dsimp only at h
  generalize hx : cadd size 15 / 16 * 16 = x at h
  have hdvd : 16 ∣ x := hx ▸ Nat.dvd_mul_left _ _
  generalize hy : (if x < 16 then 16 else x) = y at h
  have hmin : 16 ∣ y ∧ 16 ≤ y ∧ x ≤ y ∧ y < 2 ^ 64 := by
    split at hy <;> omega
  split at h
  next => cases h
  next hle =>
    split at h
    next => cases h
    next hwrap =>
      cases h
      unfold cadd hdr at *
      omega

/-! ## The operating system -/

/-- What `VirtualAlloc` returns when it succeeds. No region has 0 bytes. -/
structure Fresh (regions : List (Nat × Nat)) (base bytes : Nat) : Prop where
  page : 4096 ∣ base
  base_ne : base ≠ 0
  pos : 0 < bytes
  top : base + bytes ≤ 2 ^ 64
  apart : ∀ r ∈ regions, r.1 + r.2 ≤ base ∨ base + bytes ≤ r.1

/-- The answer `base` to a request, if there is one. -/
def Answers (regions : List (Nat × Nat)) (asked : Option Nat) (base : Nat) : Prop :=
  ∀ bytes ∈ asked, base = 0 ∨ Fresh regions base bytes

def addRegion (regions : List (Nat × Nat)) (asked : Option Nat) (base : Nat) : List (Nat × Nat) :=
  match asked with
  | none => regions
  | some bytes => if base = 0 then regions else (base, bytes) :: regions

def Ghost.regions (g : Ghost) : List (Nat × Nat) := g.chunks.map fun c => (c, g.bytes c)

/-- Where the block is too small for a split of `n` bytes, its end is zero. -/
def Heap.RestZero (h : Heap) (b n : Nat) : Prop :=
  blkSize h.mem b < n + minBlock → ∀ x, b + n ≤ x → x < b + blkSize h.mem b → h.mem x = 0

/-- The block that first fit finds for a request, if any, has nothing at its end that is handed out unzeroed. -/
def Heap.FitZero (h : Heap) (fuel size : Nat) : Prop :=
  ∀ r ∈ Heap.blockNeedFor size, ∀ b ∈ h.findFit fuel r.1, b ≠ 0 → h.RestZero b r.1

/-- What an allocation does. The whole payload is zero if and only if `clean` holds. -/
inductive Outcome (h' : Heap) (live freed : List Nat) (g' : Ghost) (base size : Nat) (clean : Prop) : Nat → Prop
  | failed (keeps : g'.live = live) (same : g'.freed = freed)
      (why : base = 0 ∨ ∀ r ∈ Heap.blockNeedFor size, 2 ^ 64 < r.1 + 2 ^ 17) :
      Outcome h' live freed g' base size clean 0
  | got {b blockNeed need : Nat} (adds : g'.live = b :: live) (clears : g'.freed = [])
      (request : Heap.blockNeedFor size = some (blockNeed, need)) (room : blockNeed ≤ blkSize h'.mem b)
      (zero : ∀ x, b + 16 ≤ x → x < b + 16 + need → h'.mem x = 0)
      (whole : (∀ x, b + 16 ≤ x → x < b + blkSize h'.mem b → h'.mem x = 0) ↔ clean) :
      Outcome h' live freed g' base size clean (b + 16)

namespace Ready
variable {h h' : Heap} {g : Ghost} {base n p size fuel : Nat}

theorem findFit_spec (hr : Ready h g) {b : Nat} (hfit : h.findFit fuel n = some b) :
    b = 0 ∧ (∀ y ∈ g.free, blkSize h.mem y < n) ∨ b ∈ g.free ∧ b ≠ 0 ∧ n ≤ blkSize h.mem b :=
  findFitFrom_spec hr.inv.list hfit

/-- The part of `Allocate` behind the search. -/
theorem take_outcome (hr : Ready h g) (base : Nat) {b blockNeed need : Nat} (hb : b ∈ g.free)
    (hneed : Heap.blockNeedFor size = some (blockNeed, need)) (hfit : blockNeed ≤ blkSize h.mem b) :
    ∃ g', Ready (h.take b blockNeed need).1 g' ∧ g'.regions = g.regions ∧
      (∀ y ∈ g.live, wget (h.take b blockNeed need).1.mem y = wget h.mem y) ∧
      Outcome (h.take b blockNeed need).1 g.live g.freed g' base size (h.RestZero b blockNeed)
        (h.take b blockNeed need).2 := by
  obtain ⟨rfl, hdvd, hmin, -, -⟩ := blockNeedFor_spec hneed
  obtain ⟨blocks, free, htake, hp, hroom, hkeep, hzero, hsize, hrest⟩ := hr.take_spec hb hdvd hmin hfit
  refine ⟨_, htake, rfl, hkeep, ?_⟩
  rw [hp]
  refine .got rfl rfl hneed hroom hzero ⟨fun hall hsmall x h1 h2 => ?_, fun hclean x h1 h2 => ?_⟩
  · unfold minBlock at hsmall
    rw [if_pos (by omega)] at hsize
    rw [← hrest x (by omega) (hsize ▸ h2)]
    exact hall x (by omega) (hsize ▸ h2)
  · by_cases hx : x < b + 16 + need
    · exact hzero x h1 hx
    · rw [hrest x (by omega) h2]
      split at hsize
      · exact hclean (by unfold minBlock; omega) x (by omega) (hsize ▸ h2)
      · omega

theorem regions_grow (blocks : Nat → List Nat) (free : List Nat) {bytes : Nat}
    (hfresh : Fresh g.regions base bytes) (hlarge : ∀ c ∈ g.chunks, 0 < g.bytes c) :
    Ghost.regions { g with
      chunks := base :: g.chunks, blocks := blocks, bytes := Function.update g.bytes base bytes
      free := free } = (base, bytes) :: g.regions := by
  unfold Ghost.regions
  dsimp only
  rw [List.map_cons, Function.update_self]
  refine congrArg _ (List.map_congr_left fun c hc => ?_)
  rw [Function.update_of_ne]
  rintro rfl
  have := hfresh.apart (c, g.bytes c) (List.mem_map.2 ⟨c, hc, rfl⟩)
  have := hlarge c hc
  have := hfresh.pos
  omega

theorem allocate_spec (hr : Ready h g) (hos : Answers g.regions (h.asksFor fuel size) base)
    (halloc : h.allocate fuel base size = some (h', p)) :
    ∃ g', Ready h' g' ∧ g'.regions = addRegion g.regions (h.asksFor fuel size) base ∧
      (∀ y ∈ g.live, wget h'.mem y = wget h.mem y) ∧
      Outcome h' g.live g.freed g' base size (h.FitZero fuel size) p := by
  unfold Heap.allocate at halloc
  unfold Heap.asksFor at hos ⊢
  cases hneed : Heap.blockNeedFor size with
  | none =>
    rw [hneed] at halloc
    cases halloc
    refine ⟨g, hr, rfl, fun _ _ => rfl, .failed rfl rfl (.inr fun r hr => ?_)⟩
    rw [hneed] at hr
    cases hr
  | some r =>
    obtain ⟨blockNeed, need⟩ := r
    rw [hneed] at halloc hos
    dsimp only at halloc hos ⊢
    obtain ⟨b, hfit, halloc⟩ := Option.bind_eq_some_iff.1 halloc
    rw [hfit] at hos ⊢
    split at halloc
    next hb =>
      have htake : h.take b blockNeed need = (h', p) := Option.some.inj halloc
      obtain ⟨hmem, -, hroom⟩ := (hr.findFit_spec hfit).resolve_left fun hz => hb hz.1
      have hclean : h.FitZero fuel size ↔ h.RestZero b blockNeed := by
        unfold Heap.FitZero
        rw [hneed]
        exact ⟨fun hall => hall _ rfl b hfit hb, fun hrest r hr b' hb' _ => by
          cases hr
          obtain rfl := Option.some.inj (hfit.symm.trans hb')
          exact hrest⟩
      have hout := hr.take_outcome base hmem hneed hroom
      rw [htake] at hout
      rw [if_neg fun heq => hb (Option.some.inj heq), hclean]
      exact hout
    next hb =>
      obtain rfl : b = 0 := not_not.1 hb
      rw [if_pos rfl] at hos ⊢
      by_cases hbase : base = 0
      · subst hbase
        cases halloc
        exact ⟨g, hr, rfl, fun _ _ => rfl, .failed rfl rfl (.inl rfl)⟩
      · have hfresh := (hos _ rfl).resolve_left hbase
        have hlarge : ∀ c ∈ g.chunks, 0 < g.bytes c := fun c hc => by
          have hchunk := hr.inv.chunk c hc
          have := hchunk.size
          have := hchunk.large
          omega
        obtain ⟨hgrown, hready, hsize, hkeep, hblank⟩ := hr.growHeap_spec (n := blockNeed) hfresh.page
          hfresh.base_ne hfresh.pos hfresh.top
          fun c hc => hfresh.apart (c, g.bytes c) (List.mem_map.2 ⟨c, hc, rfl⟩)
        have hlive : ∀ y ∈ g.live, wget (h.growHeap blockNeed base).1.mem y = wget h.mem y := fun y hy =>
          hkeep y ((hr.inv.live y).1 hy).1
        have hclean : h.FitZero fuel size := fun r hr b hb hne => by
          obtain rfl := Option.some.inj (hr.symm.trans hneed)
          exact absurd (Option.some.inj (hb.symm.trans hfit)) hne
        have hregions := regions_grow (Function.update g.blocks base [base + 16]) ((base + 16) :: g.free)
          hfresh hlarge
        unfold addRegion
        dsimp only
        rw [if_neg hbase]
        rw [hgrown, if_pos rfl] at halloc
        generalize h.growHeap blockNeed base = r at *
        obtain ⟨h₁, grown⟩ := r
        obtain ⟨b, hfit₁, halloc⟩ := Option.bind_eq_some_iff.1 halloc
        split at halloc
        next hb₁ =>
          have htake : h₁.take b blockNeed need = (h', p) := Option.some.inj halloc
          obtain ⟨hmem, -, hroom⟩ := (hready.findFit_spec hfit₁).resolve_left fun hz => hb₁ hz.1
          -- no old block is large enough, so it is the new one, which is zero
          have hnew : b = base + 16 := by
            rcases List.mem_cons.1 hmem with rfl | hold
            · rfl
            · have hsmall := ((hr.findFit_spec hfit).resolve_right fun hz => hz.2.1 rfl).2 b hold
              rw [← blkSize_congr (hkeep b (hr.inv.mem_free hold))] at hsmall
              omega
          have hrest : h₁.RestZero b blockNeed := by
            intro _ x h1 h2
            have hneeds := (blockNeedFor_spec hneed)
            subst hnew
            rw [hsize] at h2
            exact hblank x (by omega) (by omega)
          have hout := hready.take_outcome base hmem hneed hroom
          rw [htake] at hout
          obtain ⟨g', hg', hreg, hkeep', hout⟩ := hout
          refine ⟨g', hg', hreg.trans hregions, fun y hy => (hkeep' y hy).trans (hlive y hy), ?_⟩
          rw [show h.FitZero fuel size ↔ h₁.RestZero b blockNeed from iff_of_true hclean hrest]
          exact hout
        next hb₁ =>
          cases halloc
          refine ⟨_, hready, hregions, hlive, .failed rfl rfl (.inr fun r hr => ?_)⟩
          rw [hneed] at hr
          cases hr
          by_contra hsmall
          -- the new block would have been found
          rcases hready.findFit_spec hfit₁ with ⟨-, hnone⟩ | ⟨-, hb, -⟩
          · have := hnone _ List.mem_cons_self
            have := le_growBytes (n := blockNeed) (by omega)
            omega
          · exact hb₁ hb

/-- Enough turns for both searches. -/
theorem isSome_allocate (hr : Ready h g) (size base : Nat)
    (hos : Answers g.regions (h.asksFor (g.free.length + 2) size) base) :
    (h.allocate (g.free.length + 2) base size).isSome := by
  unfold Heap.allocate
  unfold Heap.asksFor at hos
  cases hneed : Heap.blockNeedFor size with
  | none => rfl
  | some r =>
    obtain ⟨blockNeed, need⟩ := r
    rw [hneed] at hos
    dsimp only at hos ⊢
    have hfind : (h.findFit (g.free.length + 2) blockNeed).isSome := isSome_findFitFrom hr.inv.list (by omega)
    obtain ⟨b, hb⟩ := Option.isSome_iff_exists.1 hfind
    rw [hb] at hos ⊢
    by_cases hz : b = 0
    · subst hz
      rw [if_pos rfl] at hos
      by_cases hbase : base = 0
      · subst hbase
        rfl
      · have hfresh := (hos _ rfl).resolve_left hbase
        obtain ⟨hgrown, hready, -⟩ := hr.growHeap_spec (n := blockNeed) hfresh.page hfresh.base_ne
          hfresh.pos hfresh.top fun c hc => hfresh.apart (c, g.bytes c) (List.mem_map.2 ⟨c, hc, rfl⟩)
        have hagain : ((h.growHeap blockNeed base).1.findFit (g.free.length + 2) blockNeed).isSome :=
          isSome_findFitFrom hready.inv.list (by rw [List.length_cons]; omega)
        obtain ⟨b', hb'⟩ := Option.isSome_iff_exists.1 hagain
        simp only [Option.bind_eq_bind, Option.bind_some, ne_eq, not_true_eq_false, if_false, hgrown, if_true,
          hb']
        split <;> rfl
    · simp only [Option.bind_eq_bind, Option.bind_some, ne_eq, hz, not_false_eq_true, if_true]
      rfl

end Ready

end NewM2.M2Heap
