import NewM2.M2Heap.FreeList

/-! # Writing headers

Marking a block, merging two, cutting one, and telling the block behind its size. -/

namespace NewM2.M2Heap

/-- Nothing changed in the chunk. -/
theorem ChunkInv.frame {m m' : Mem} {g g' : Ghost} {c : Nat} (hc : ChunkInv m g c)
    (hm : ∀ x, c ≤ x → x < c + chunkBytes m c → m' x = m x) (hblocks : g'.blocks c = g.blocks c)
    (hghost : g'.bytes = g.bytes)
    (hheld : ∀ x, c ≤ x → x < c + chunkBytes m c → ¬ g'.held x → ¬ g.held x)
    (hstale : ∀ x, c ≤ x → x < c + chunkBytes m c → x ≠ g'.stale → x ≠ g.stale) :
    ChunkInv m' g' c := by
  have hlarge := hc.large
  have hw : ∀ a, c ≤ a → a + 8 ≤ c + chunkBytes m c → wget m' a = wget m a := fun a h1 h2 =>
    wget_congr fun x h3 h4 => hm x (by omega) (by omega)
  have hbytes : chunkBytes m' c = chunkBytes m c := hw _ (by omega) (by omega)
  have hsent : sentOf m' c = sentOf m c := by
    unfold sentOf
    rw [hbytes]
  have hword : ∀ b ∈ g.blocks c, wget m' b = wget m b := fun b hb => by
    have := hc.range hb
    exact hw b (by omega) (by omega)
  have hnext : ∀ b ∈ g.blocks c, wget m' (b + blkSize m b) = wget m (b + blkSize m b) ∧
      wget m' (b + blkSize m b + 8) = wget m (b + blkSize m b + 8) := fun b hb => by
    have := hc.range hb
    exact ⟨hw _ (by omega) (by omega), hw _ (by omega) (by omega)⟩
  exact
    { page := hc.page
      pos := hc.pos
      size := by rw [hbytes, hc.size, hghost]
      bytes := hbytes ▸ hc.bytes
      large := hbytes ▸ hc.large
      top := hbytes ▸ hc.top
      tiled := by
        rw [hblocks, hsent]
        exact hc.tiled.congr fun b hb => blkSize_congr (hword b hb)
      min := fun b hb => by
        rw [hblocks] at hb
        rw [blkSize_congr (hword b hb)]
        exact hc.min b hb
      first := (hw _ (by omega) (by omega)).trans hc.first
      prev := fun b hb hne => by
        rw [hblocks] at hb
        have hr := hc.range hb
        rw [blkSize_congr (hword b hb), (hnext b hb).2]
        exact hc.prev b hb (hstale b (by omega) (by omega) hne)
      sentinel := by
        rw [hsent, hw]
        · exact hc.sentinel
        · unfold sentOf
          omega
        · unfold sentOf
          omega
      apart := fun b hb hnb hnn hf => by
        rw [hblocks] at hb
        have hr := hc.range hb
        rw [blkSize_congr (hword b hb)] at hnn ⊢
        rw [blkAlloc_congr (hword b hb)] at hf
        rw [blkAlloc_congr (hnext b hb).1]
        exact hc.apart b hb (hheld b (by omega) (by omega) hnb) (hheld _ (by omega) (by omega) hnn) hf }

namespace HeapInv
variable {h : Heap} {g g' : Ghost} {m' : Mem} {a b c v x y : Nat}

/-- An edit inside one chunk leaves the list of chunks and the other chunks alone. -/
theorem edit (hi : HeapInv h g) (hc : c ∈ g.chunks)
    (hm : ∀ x, x < c + 16 ∨ c + chunkBytes h.mem c ≤ x → m' x = h.mem x)
    (hchunk : ChunkInv m' g' c) (hblocks : ∀ d, d ≠ c → g'.blocks d = g.blocks d)
    (hghost : g'.bytes = g.bytes)
    (hheld : ∀ x, x < c ∨ c + chunkBytes h.mem c ≤ x → ¬ g'.held x → ¬ g.held x)
    (hstale : ∀ x, 0 < x → x < c ∨ c + chunkBytes h.mem c ≤ x → x ≠ g'.stale → x ≠ g.stale) :
    Chain (wget m') h.gFirstChunk g.chunks ∧
      (∀ c ∈ g.chunks, ∀ d ∈ g.chunks, c ≠ d →
        c + chunkBytes m' c ≤ d ∨ d + chunkBytes m' d ≤ c) ∧
      ∀ d ∈ g.chunks, ChunkInv m' g' d := by
  have hlarge := (hi.chunk c hc).large
  have hother : ∀ d ∈ g.chunks, d ≠ c → ∀ x, d ≤ x → x < d + chunkBytes h.mem d → m' x = h.mem x := by
    intro d hd hne x h1 h2
    have := hi.separate d hd c hc hne
    exact hm x (by omega)
  have hwords : ∀ d ∈ g.chunks, wget m' d = wget h.mem d ∧ chunkBytes m' d = chunkBytes h.mem d := by
    intro d hd
    by_cases hne : d = c
    · subst hne
      exact ⟨wget_congr fun x h1 h2 => hm x (by omega), wget_congr fun x h1 h2 => hm x (by omega)⟩
    · have hl := (hi.chunk d hd).large
      exact ⟨wget_congr fun x h1 h2 => hother d hd hne x (by omega) (by omega),
        wget_congr fun x h1 h2 => hother d hd hne x (by omega) (by omega)⟩
  refine ⟨hi.chunks.congr fun d hd => (hwords d hd).1, fun d hd e he hne => ?_, fun d hd => ?_⟩
  · rw [(hwords d hd).2, (hwords e he).2]
    exact hi.separate d hd e he hne
  · by_cases hne : d = c
    · subst hne
      exact hchunk
    · have hsep := hi.separate d hd c hc hne
      exact (hi.chunk d hd).frame (hother d hd hne) (hblocks d hne) hghost
        (fun x h1 h2 => hheld x (by omega)) fun x h1 h2 => hstale x (by
          have := (hi.chunk d hd).pos
          omega) (by omega)

/-- What a write to the header of `b` leaves alone. -/
theorem wput_header (hi : HeapInv h g) (hb : g.Block b) (v : Nat) :
    (∀ y, g.Block y → y ≠ b → wget (wput h.mem b v) y = wget h.mem y) ∧
      (∀ y, g.Block y → wget (wput h.mem b v) (y + blkSize h.mem y + 8) =
        wget h.mem (y + blkSize h.mem y + 8)) ∧
      (∀ y, g.Block y → y + blkSize h.mem y ≠ b →
        wget (wput h.mem b v) (y + blkSize h.mem y) = wget h.mem (y + blkSize h.mem y)) ∧
      (∀ y, g.Block y → fNext (wput h.mem b v) y = fNext h.mem y ∧
        fPrev (wput h.mem b v) y = fPrev h.mem y) ∧
      ∀ y, g.FreedAt h.mem y → y ≠ b → wget (wput h.mem b v) y = wget h.mem y := by
  have hrb := hi.range hb
  refine ⟨fun y hy hne => ?_, fun y hy => ?_, fun y hy hne => ?_, fun y hy => ?_, fun y hy hne => ?_⟩
  · have := hi.links_apart hy hb hne
    exact wget_wput_of_apart (by omega)
  · have hry := hi.range hy
    by_cases hyb : y = b
    · subst hyb
      exact wget_wput_of_apart (by omega)
    · have := hi.disjoint hy hb hyb
      have h16 : 16 ∣ blkSize h.mem y := dvd_blkSize
      exact wget_wput_of_apart (by omega)
  · have hry := hi.range hy
    by_cases hyb : y = b
    · subst hyb
      exact wget_wput_of_apart (by omega)
    · have hdis := hi.disjoint hy hb hyb
      have h16 : 16 ∣ blkSize h.mem y := dvd_blkSize
      exact wget_wput_of_apart (by omega)
  · unfold fNext fPrev
    rw [(hi.off_link hy).1, (hi.off_link hy).2]
    by_cases hyb : y = b
    · subst hyb
      exact ⟨wget_wput_of_apart (by omega), wget_wput_of_apart (by omega)⟩
    · have := hi.links_apart hy hb hyb
      exact ⟨wget_wput_of_apart (by omega), wget_wput_of_apart (by omega)⟩
  · obtain ⟨-, a, ha, -, hay⟩ := hy
    have hra := hi.range ha
    by_cases hab : a = b
    · subst hab
      have := hrb.1
      exact wget_wput_of_apart (by omega)
    · have := hi.disjoint ha hb hab
      exact wget_wput_of_apart (by omega)

/-- The bytes of a header are in the chunk of the block. -/
theorem wput_inside (hi : HeapInv h g) (hc : c ∈ g.chunks) (hb : b ∈ g.blocks c) (v : Nat) :
    ∀ x, x < c + 16 ∨ c + chunkBytes h.mem c ≤ x → wput h.mem b v x = h.mem x := by
  intro x hx
  have := (hi.chunk c hc).range hb
  exact wput_of_apart (by omega)

/-! ## Marking a block -/

section mark
variable (hi : HeapInv h g) (hb : g.Block b) (hv : v < 2 ^ 64) (hsize : v / 16 * 16 = blkSize h.mem b)

include hi hb hv hsize in
theorem blkSize_mark (hy : g.Block y) : blkSize (wput h.mem b v) y = blkSize h.mem y := by
  by_cases hyb : y = b
  · subst hyb
    rw [blkSize_eq, wget_wput_self hv, hsize]
  · exact blkSize_congr ((hi.wput_header hb v).1 y hy hyb)

include hi hb hv hsize in
/-- A block keeps its size and changes its mark. -/
theorem mark {free freed live : List Nat} {used stale : Nat} {held : Nat → Prop}
    (hstale : ∀ y, g.Block y → y ≠ stale → y ≠ g.stale)
    (hlist : free = g.free) (hfree : ∀ y, y ∈ free ↔ g.Block y ∧
      (if y = b then v % 2 = 0 else blkAlloc h.mem y = false) ∧ ¬ held y)
    (hfreed : ∀ y ∈ freed, g.FreedAt h.mem y ∧ y ≠ b ∧ v % 2 = 0 ∨ y = b ∧ v % 2 = 0)
    (hnodup : live.Nodup) (hlive : ∀ y, y ∈ live ↔ g.Block y ∧
      (if y = b then v % 2 = 1 else blkAlloc h.mem y = true))
    (hused : used = (live.map (blkSize h.mem)).sum)
    (hapart : ∀ y, g.Block y → ¬ held y → ¬ held (y + blkSize h.mem y) → y ≠ b →
      blkAlloc h.mem y = false → y + blkSize h.mem y = b ∧ v % 2 = 1 ∨
        y + blkSize h.mem y ≠ b ∧ blkAlloc h.mem (y + blkSize h.mem y) = true)
    (hown : ¬ held b → ¬ held (b + blkSize h.mem b) → v % 2 = 0 →
      blkAlloc h.mem (b + blkSize h.mem b) = true) :
    HeapInv { h with mem := wput h.mem b v }
      ⟨g.chunks, g.blocks, g.bytes, free, freed, live, used, held, stale⟩ := by
  subst hlist
  obtain ⟨hword, hprev, hnext, hlinks, hfreedw⟩ := hi.wput_header hb v
  have hsizes : ∀ y, g.Block y → blkSize (wput h.mem b v) y = blkSize h.mem y := fun y hy =>
    hi.blkSize_mark hb hv hsize hy
  have hself : wget (wput h.mem b v) b = v := wget_wput_self hv
  have halloc : ∀ y, g.Block y → blkAlloc (wput h.mem b v) y =
      if y = b then decide (v % 2 = 1) else blkAlloc h.mem y := by
    intro y hy
    split
    next hyb =>
      subst hyb
      rw [blkAlloc_eq, hself]
    next hyb => exact blkAlloc_congr (hword y hy hyb)
  have hfalse : ∀ y, g.Block y → (blkAlloc (wput h.mem b v) y = false ↔
      if y = b then v % 2 = 0 else blkAlloc h.mem y = false) := by
    intro y hy
    rw [halloc y hy]
    split
    · rw [decide_eq_false_iff_not]
      omega
    · rfl
  have htrue : ∀ y, g.Block y → (blkAlloc (wput h.mem b v) y = true ↔
      if y = b then v % 2 = 1 else blkAlloc h.mem y = true) := by
    intro y hy
    rw [halloc y hy]
    split
    · rw [decide_eq_true_iff]
    · rfl
  have hchunkw : ∀ c ∈ g.chunks, wget (wput h.mem b v) c = wget h.mem c ∧
      chunkBytes (wput h.mem b v) c = chunkBytes h.mem c ∧
      wget (wput h.mem b v) (sentOf h.mem c) = wget h.mem (sentOf h.mem c) ∧
      wget (wput h.mem b v) (c + 16 + 8) = wget h.mem (c + 16 + 8) := by
    intro c hc
    obtain ⟨hlo, hhi⟩ := hi.chunk_apart hc hb
    have hr := hi.range hb
    have hpage := (hi.chunk c hc).page
    refine ⟨wget_wput_of_apart (by omega), wget_wput_of_apart (by omega), wget_wput_of_apart (by omega),
      wget_wput_of_apart (by omega)⟩
  refine hi.rebuild rfl rfl rfl hsizes hchunkw (fun y hy hne => ?_) (fun y hy hny hnn hf => ?_)
    (hi.list.congr (fun y hy => (hlinks y (hi.mem_free hy)).1) fun y hy =>
      (hlinks y (hi.mem_free hy)).2) hi.nodup
    (fun y => (hfree y).trans (and_congr_right fun hy => and_congr_left fun _ => (hfalse y hy).symm))
    (fun y hy => ?_) hnodup
    (fun y => (hlive y).trans (and_congr_right fun hy => (htrue y hy).symm)) hused
  · obtain ⟨c, hc, hyc⟩ := hy
    rw [hprev y ⟨c, hc, hyc⟩]
    exact (hi.chunk c hc).prev y hyc (hstale y ⟨c, hc, hyc⟩ hne)
  · have hf' := (hfalse y hy).1 hf
    split at hf'
    next heq =>
      subst heq
      have hr := hi.range hy
      rw [blkAlloc_congr (hnext y hy (by omega))]
      exact hown hny hnn hf'
    next hne =>
      rcases hapart y hy hny hnn hne hf' with ⟨heq, hodd⟩ | ⟨hne, hal⟩
      · rw [heq, blkAlloc_eq, hself]
        exact decide_eq_true hodd
      · rw [blkAlloc_congr (hnext y hy hne)]
        exact hal
  · rcases hfreed y hy with ⟨hat, hne, heven⟩ | ⟨rfl, heven⟩
    · obtain ⟨hf, a, ha, haf, hay⟩ := hat
      refine ⟨(blkAlloc_congr (hfreedw y ⟨hf, a, ha, haf, hay⟩ hne)).trans hf, a, ha,
        (hfalse a ha).2 ?_, ?_⟩
      · split
        · exact heven
        · exact haf
      · rw [hsizes a ha]
        exact hay
    · have hfree := (hfalse y hb).2 (by rw [if_pos rfl]; exact heven)
      exact ⟨hfree, y, hb, hfree, .inl rfl⟩

end mark

/-! ## The size behind a block -/

/-- The block behind `b` learns its size. -/
theorem fixPrev (hi : HeapInv h g) (hb : g.Block b) (hstale : g.stale = b) :
    HeapInv { h with mem := wput h.mem (b + blkSize h.mem b + 8) (blkSize h.mem b) }
        { g with stale := 0 } ∧
      ∀ y, g.Block y →
        wget (wput h.mem (b + blkSize h.mem b + 8) (blkSize h.mem b)) y = wget h.mem y ∧
        wget (wput h.mem (b + blkSize h.mem b + 8) (blkSize h.mem b)) (y + blkSize h.mem y) =
          wget h.mem (y + blkSize h.mem y) := by
  have hrb := hi.range hb
  have h16b : 16 ∣ blkSize h.mem b := dvd_blkSize
  have hword : ∀ y, g.Block y →
      wget (wput h.mem (b + blkSize h.mem b + 8) (blkSize h.mem b)) y = wget h.mem y ∧
      wget (wput h.mem (b + blkSize h.mem b + 8) (blkSize h.mem b)) (y + blkSize h.mem y) =
        wget h.mem (y + blkSize h.mem y) := by
    intro y hy
    have hry := hi.range hy
    have h16y : 16 ∣ blkSize h.mem y := dvd_blkSize
    exact ⟨wget_wput_of_apart (by omega), wget_wput_of_apart (by omega)⟩
  have halloc : ∀ y, g.Block y →
      blkAlloc (wput h.mem (b + blkSize h.mem b + 8) (blkSize h.mem b)) y = blkAlloc h.mem y :=
    fun y hy => blkAlloc_congr (hword y hy).1
  have hsize : ∀ y, g.Block y →
      blkSize (wput h.mem (b + blkSize h.mem b + 8) (blkSize h.mem b)) y = blkSize h.mem y :=
    fun y hy => blkSize_congr (hword y hy).1
  have hlink : ∀ y, g.Block y →
      fNext (wput h.mem (b + blkSize h.mem b + 8) (blkSize h.mem b)) y = fNext h.mem y ∧
      fPrev (wput h.mem (b + blkSize h.mem b + 8) (blkSize h.mem b)) y = fPrev h.mem y := by
    intro y hy
    have hry := hi.range hy
    unfold fNext fPrev
    rw [(hi.off_link hy).1, (hi.off_link hy).2]
    by_cases hyb : y = b
    · subst hyb
      exact ⟨wget_wput_of_apart (by omega), wget_wput_of_apart (by omega)⟩
    · have := hi.disjoint hy hb hyb
      exact ⟨wget_wput_of_apart (by omega), wget_wput_of_apart (by omega)⟩
  refine ⟨?_, hword⟩
  refine hi.rebuild rfl rfl rfl hsize (fun c hc => ?_) (fun y hy hne => ?_) (fun y hy hny hnn hf => ?_)
    (hi.list.congr (fun y hy => (hlink y (hi.mem_free hy)).1) fun y hy =>
      (hlink y (hi.mem_free hy)).2) hi.nodup
    (fun y => (hi.free y).trans (and_congr_right fun hy => by rw [halloc y hy])) (fun y hy => ?_)
    hi.liveNodup (fun y => (hi.live y).trans (and_congr_right fun hy => by rw [halloc y hy])) hi.used
  · have hchunk := hi.chunk c hc
    have hap := hi.chunk_apart hc hb
    have hpage := hchunk.page
    have hsent := hchunk.aligned.1
    exact ⟨wget_wput_of_apart (by omega), wget_wput_of_apart (by omega), wget_wput_of_apart (by omega),
      wget_wput_of_apart (by omega)⟩
  · by_cases hyb : y = b
    · subst hyb
      exact wget_wput_self (blkSize_lt _ _)
    · obtain ⟨c, hc, hyc⟩ := hy
      have hry := hi.range ⟨c, hc, hyc⟩
      have hdis := hi.disjoint ⟨c, hc, hyc⟩ hb hyb
      have h16y : 16 ∣ blkSize h.mem y := dvd_blkSize
      rw [wget_wput_of_apart (by omega)]
      exact (hi.chunk c hc).prev y hyc (by rwa [hstale])
  · rw [blkAlloc_congr (hword y hy).2]
    obtain ⟨c, hc, hyc⟩ := hy
    exact (hi.chunk c hc).apart y hyc hny hnn (halloc y ⟨c, hc, hyc⟩ ▸ hf)
  · obtain ⟨hf, a, ha, haf, hay⟩ := hi.freed y hy
    have hra := hi.range ha
    have hyw : wget (wput h.mem (b + blkSize h.mem b + 8) (blkSize h.mem b)) y = wget h.mem y := by
      by_cases hab : a = b
      · subst hab
        exact wget_wput_of_apart (by omega)
      · have := hi.disjoint ha hb hab
        exact wget_wput_of_apart (by omega)
    refine ⟨(blkAlloc_congr hyw).trans hf, a, ha, (halloc a ha).trans haf, ?_⟩
    rwa [hsize a ha]

end HeapInv
end NewM2.M2Heap
