import NewM2.M2Heap.Headers

/-! # Merging and cutting blocks -/

namespace NewM2.M2Heap
namespace HeapInv
variable {h : Heap} {g : Ghost} {b n : Nat}

/-- Merge the block behind `b` into `b`; both are off the free list. -/
theorem merge (hi : HeapInv h g) (hb : g.Block b) (hn : g.Block (b + blkSize h.mem b))
    (hbf : blkAlloc h.mem b = false) (hnf : blkAlloc h.mem (b + blkSize h.mem b) = false)
    (hheld : ∀ y, g.held y ↔ y = b ∨ y = b + blkSize h.mem b)
    (hstale : g.stale = 0 ∨ g.stale = b ∨ g.stale = b + blkSize h.mem b) :
    ∃ blocks, HeapInv
        { h with mem := wput h.mem b (blkSize h.mem b + blkSize h.mem (b + blkSize h.mem b)) }
        { g with blocks := blocks, held := fun y => y = b, stale := b } ∧
      ∀ y, (∃ c ∈ g.chunks, y ∈ blocks c) ↔ g.Block y ∧ y ≠ b + blkSize h.mem b := by
  have hrb := hi.range hb
  have hrn := hi.range hn
  obtain ⟨c, hc, hbc⟩ := id hb
  have hchunk := hi.chunk c hc
  have hnc : b + blkSize h.mem b ∈ g.blocks c := by
    refine (hchunk.next hbc).resolve_left fun heq => ?_
    rw [heq, hi.sent_alloc hc] at hnf
    cases hnf
  have hdvd : 16 ∣ blkSize h.mem b + blkSize h.mem (b + blkSize h.mem b) :=
    Nat.dvd_add dvd_blkSize dvd_blkSize
  obtain ⟨hword, hprev, hnext, hlinks, hfreedw⟩ :=
    hi.wput_header hb (blkSize h.mem b + blkSize h.mem (b + blkSize h.mem b))
  have hinside := hi.wput_inside hc hbc (blkSize h.mem b + blkSize h.mem (b + blkSize h.mem b))
  have hself : wget (wput h.mem b (blkSize h.mem b + blkSize h.mem (b + blkSize h.mem b))) b =
      blkSize h.mem b + blkSize h.mem (b + blkSize h.mem b) := wget_wput_self (by omega)
  generalize hs : blkSize h.mem b + blkSize h.mem (b + blkSize h.mem b) = s at *
  generalize hm' : wput h.mem b s = m' at *
  generalize hnb : b + blkSize h.mem b = n at *
  obtain ⟨hsizeb, hallocb⟩ := header_of_free hdvd hself
  have hsize : ∀ y, g.Block y → y ≠ b → blkSize m' y = blkSize h.mem y := fun y hy hne =>
    blkSize_congr (hword y hy hne)
  have halloc : ∀ y, g.Block y → y ≠ b → blkAlloc m' y = blkAlloc h.mem y := fun y hy hne =>
    blkAlloc_congr (hword y hy hne)
  obtain ⟨l, htiled, hl⟩ := hchunk.tiled.merge hbc (hnb.symm ▸ hnc)
    (hnb.symm ▸ hsizeb.trans hs.symm) fun y hy hne => hsize y ⟨c, hc, hy⟩ hne
  rw [hnb] at hl
  have hblock : ∀ y, (∃ d ∈ g.chunks, y ∈ Function.update g.blocks c l d) ↔ g.Block y ∧ y ≠ n := by
    intro y
    constructor
    · rintro ⟨d, hd, hy⟩
      by_cases hdc : d = c
      · subst hdc
        rw [Function.update_self, hl] at hy
        exact ⟨⟨d, hd, hy.1⟩, hy.2⟩
      · rw [Function.update_of_ne hdc] at hy
        refine ⟨⟨d, hd, hy⟩, ?_⟩
        rintro rfl
        have := (hi.chunk d hd).range hy
        have := hchunk.range hnc
        have := hi.separate d hd c hc hdc
        omega
    · rintro ⟨⟨d, hd, hy⟩, hne⟩
      refine ⟨d, hd, ?_⟩
      by_cases hdc : d = c
      · subst hdc
        rw [Function.update_self, hl]
        exact ⟨hy, hne⟩
      · rwa [Function.update_of_ne hdc]
  refine ⟨Function.update g.blocks c l, ?_, hblock⟩
  -- nothing but `b` ends where `n` starts
  have hends : ∀ y, g.Block y → y ≠ b → y + blkSize h.mem y ≠ n := by
    intro y hy hne heq
    have := hi.disjoint hy hb hne
    have := (hi.range hy).2.2.2
    omega
  have hends' : ∀ y, g.Block y → y ≠ b → y ≠ g.stale ∨ y = n := by
    intro y hy hne
    have := (hi.range hy).2.1
    omega
  have hpage := hchunk.page
  have hbytes : chunkBytes m' c = chunkBytes h.mem c :=
    wget_congr fun x h1 h2 => hinside x (by omega)
  have hsent : sentOf m' c = sentOf h.mem c := by
    unfold sentOf
    rw [hbytes]
  have hchunk' : ChunkInv m' { g with
      blocks := Function.update g.blocks c l, held := fun y => y = b, stale := b } c := by
    have hmem : ∀ y ∈ Function.update g.blocks c l c, y ∈ g.blocks c ∧ y ≠ n := by
      intro y hy
      rwa [Function.update_self, hl] at hy
    have hsentr : b + s ≤ sentOf h.mem c := by
      have := (hchunk.tiled.mem_range hnc).2.1
      omega
    exact
      { page := hpage
        pos := hchunk.pos
        size := hbytes.trans hchunk.size
        bytes := hbytes ▸ hchunk.bytes
        large := hbytes ▸ hchunk.large
        top := hbytes ▸ hchunk.top
        tiled := by
          change Tiled (blkSize m') (c + 16) (sentOf m' c) (Function.update g.blocks c l c)
          rw [Function.update_self, hsent]
          exact htiled
        min := fun y hy => by
          obtain ⟨hyc, -⟩ := hmem y hy
          by_cases hyb : y = b
          · subst hyb
            omega
          · rw [hsize y ⟨c, hc, hyc⟩ hyb]
            exact hchunk.min y hyc
        first := by
          have := hchunk.range hbc
          rw [← hm', wget_wput_of_apart (by omega)]
          exact hchunk.first
        prev := fun y hy hne => by
          obtain ⟨hyc, hyn⟩ := hmem y hy
          have hyb : g.Block y := ⟨c, hc, hyc⟩
          rw [hsize y hyb hne, hprev y hyb]
          exact hchunk.prev y hyc ((hends' y hyb hne).resolve_right hyn)
        sentinel := by
          rw [hsent, ← hm', wget_wput_of_apart (by omega)]
          exact hchunk.sentinel
        apart := fun y hy hny hnn hf => by
          obtain ⟨hyc, hyn⟩ := hmem y hy
          have hyb : g.Block y := ⟨c, hc, hyc⟩
          rw [hsize y hyb hny] at hnn ⊢
          rw [halloc y hyb hny] at hf
          rw [blkAlloc_congr (hnext y hyb hnn)]
          refine hchunk.apart y hyc (fun hh => ?_) (fun hh => ?_) hf
          · exact ((hheld y).1 hh).elim hny hyn
          · exact ((hheld _).1 hh).elim hnn (hends y hyb hny) }
  obtain ⟨hfirst, hsep, hchunks⟩ := hi.edit hc hinside hchunk'
    (fun d hd => Function.update_of_ne hd ..) rfl
    (fun x hx _ hh => by
      have := hchunk.range hbc
      have := hchunk.range hnc
      rcases (hheld x).1 hh with rfl | rfl <;> omega)
    (fun x _ hx _ heq => by
      have := hchunk.range hbc
      have := hchunk.range hnc
      omega)
  refine
    { chunks := hfirst
      separate := hsep
      chunk := hchunks
      list := hi.list.congr (fun y hy => (hlinks y (hi.mem_free hy)).1) fun y hy =>
        (hlinks y (hi.mem_free hy)).2
      nodup := hi.nodup
      free := fun y => ?_
      freed := fun y hy => ?_
      liveNodup := hi.liveNodup
      live := fun y => ?_
      used := hi.used.trans (congrArg List.sum (List.map_congr_left fun y hy => ?_)) }
  · change y ∈ g.free ↔ (∃ d ∈ g.chunks, y ∈ Function.update g.blocks c l d) ∧ blkAlloc m' y = false ∧ ¬ y = b
    rw [hi.free, hblock, hheld, not_or]
    constructor
    · rintro ⟨hy, hf, hyb, hyn⟩
      exact ⟨⟨hy, hyn⟩, (halloc y hy hyb).trans hf, hyb⟩
    · rintro ⟨⟨hy, hyn⟩, hf, hyb⟩
      exact ⟨hy, (halloc y hy hyb).symm.trans hf, hyb, hyn⟩
  · obtain ⟨hf, a, ha, haf, hay⟩ := hi.freed y hy
    have hyf : blkAlloc m' y = false := by
      by_cases hyb : y = b
      · subst hyb
        exact hallocb
      · exact (blkAlloc_congr (hfreedw y ⟨hf, a, ha, haf, hay⟩ hyb)).trans hf
    by_cases han : a = n
    · subst han
      refine ⟨hyf, b, (hblock b).2 ⟨hb, by omega⟩, hallocb, .inr ?_⟩
      change b + 32 ≤ y ∧ y + 16 ≤ b + blkSize m' b ∧ 16 ∣ y
      rcases hay with rfl | ⟨h1, h2, h3⟩
      · exact ⟨by omega, by omega, hrn.1⟩
      · exact ⟨by omega, by omega, h3⟩
    · by_cases hab : a = b
      · subst hab
        refine ⟨hyf, a, (hblock a).2 ⟨ha, han⟩, hallocb, hay.imp_right fun hin => ⟨hin.1, ?_, hin.2.2⟩⟩
        change y + 16 ≤ a + blkSize m' a
        omega
      · refine ⟨hyf, a, (hblock a).2 ⟨ha, han⟩, (halloc a ha hab).trans haf, ?_⟩
        rwa [hsize a ha hab]
  · change y ∈ g.live ↔ (∃ d ∈ g.chunks, y ∈ Function.update g.blocks c l d) ∧ blkAlloc m' y = true
    rw [hi.live, hblock]
    constructor
    · rintro ⟨hy, hal⟩
      have hyb : y ≠ b := by
        rintro rfl
        rw [hbf] at hal
        cases hal
      refine ⟨⟨hy, ?_⟩, (halloc y hy hyb).trans hal⟩
      rintro rfl
      rw [hnf] at hal
      cases hal
    · rintro ⟨⟨hy, hyn⟩, hal⟩
      have hyb : y ≠ b := by
        rintro rfl
        rw [hallocb] at hal
        cases hal
      exact ⟨hy, (halloc y hy hyb).symm.trans hal⟩
  · obtain ⟨hyb, hal⟩ := (hi.live y).1 hy
    refine (hsize y hyb ?_).symm
    rintro rfl
    rw [hbf] at hal
    cases hal

/-- What cutting `b` at `b + n` writes: three headers' worth of words. -/
structure CutWrites (m m' : Mem) (b n size : Nat) : Prop where
  header : wget m' b = n ||| allocFlag
  rest : wget m' (b + n) = size - n
  restPrev : wget m' (b + n + 8) = n
  nextPrev : wget m' (b + size + 8) = size - n
  same : ∀ x, (x < b ∨ b + 8 ≤ x) → (x < b + n ∨ b + n + 16 ≤ x) →
    (x < b + size + 8 ∨ b + size + 16 ≤ x) → m' x = m x

/-- Cut the block `b`, which is off the free list: `b` is allocated, the rest is off the free list. -/
theorem cut (hi : HeapInv h g) (hb : g.Block b) (hheld : ∀ y, g.held y ↔ y = b) (hstale : g.stale = 0)
    (hbf : blkAlloc h.mem b = false) (hdvd : 16 ∣ n) (hmin : 32 ≤ n) (hle : n + 32 ≤ blkSize h.mem b)
    {m' : Mem} (hw : CutWrites h.mem m' b n (blkSize h.mem b)) :
    ∃ blocks, HeapInv { h with mem := m' }
        { g with
          blocks := blocks, freed := [], live := b :: g.live, used := g.used + n
          held := fun y => y = b + n } ∧
      (∀ y, (∃ c ∈ g.chunks, y ∈ blocks c) ↔ g.Block y ∨ y = b + n) ∧
      (∀ y, g.Block y → y ≠ b → wget m' y = wget h.mem y) ∧
      wget m' (b + blkSize h.mem b) = wget h.mem (b + blkSize h.mem b) := by
  have hrb := hi.range hb
  have h16 : 16 ∣ blkSize h.mem b := dvd_blkSize
  obtain ⟨c, hc, hbc⟩ := id hb
  have hchunk := hi.chunk c hc
  have hrc := hchunk.range hbc
  obtain ⟨hsizeb, hallocb⟩ := header_of_alloc hdvd hw.header
  obtain ⟨hsizer, hallocr⟩ := header_of_free (Nat.dvd_sub h16 hdvd) hw.rest
  generalize hS : blkSize h.mem b = S at *
  -- words away from the three headers
  have hword : ∀ a, (a + 8 ≤ b ∨ b + 8 ≤ a) → (a + 8 ≤ b + n ∨ b + n + 16 ≤ a) →
      (a + 8 ≤ b + S + 8 ∨ b + S + 16 ≤ a) → wget m' a = wget h.mem a := fun a h1 h2 h3 =>
    wget_congr fun x h4 h5 => hw.same x (by omega) (by omega) (by omega)
  have hheader : ∀ y, g.Block y → y ≠ b → wget m' y = wget h.mem y := by
    intro y hy hne
    have hry := hi.range hy
    have := hi.disjoint hy hb hne
    exact hword y (by omega) (by omega) (by omega)
  have hnextw : ∀ y, g.Block y → y + blkSize h.mem y ≠ b →
      wget m' (y + blkSize h.mem y) = wget h.mem (y + blkSize h.mem y) := by
    intro y hy hne
    have hry := hi.range hy
    have h16y : 16 ∣ blkSize h.mem y := dvd_blkSize
    by_cases hyb : y = b
    · subst hyb
      exact hword _ (by omega) (by omega) (by omega)
    · have := hi.disjoint hy hb hyb
      exact hword _ (by omega) (by omega) (by omega)
  have hprevw : ∀ y, g.Block y → y ≠ b →
      wget m' (y + blkSize h.mem y + 8) = wget h.mem (y + blkSize h.mem y + 8) := by
    intro y hy hyb
    have hry := hi.range hy
    have h16y : 16 ∣ blkSize h.mem y := dvd_blkSize
    have := hi.disjoint hy hb hyb
    exact hword _ (by omega) (by omega) (by omega)
  have hlinks : ∀ y, g.Block y → y ≠ b → fNext m' y = fNext h.mem y ∧ fPrev m' y = fPrev h.mem y := by
    intro y hy hyb
    have hry := hi.range hy
    have := hi.disjoint hy hb hyb
    unfold fNext fPrev
    rw [(hi.off_link hy).1, (hi.off_link hy).2]
    exact ⟨hword _ (by omega) (by omega) (by omega), hword _ (by omega) (by omega) (by omega)⟩
  have hsize : ∀ y, g.Block y → y ≠ b → blkSize m' y = blkSize h.mem y := fun y hy hne =>
    blkSize_congr (hheader y hy hne)
  have halloc : ∀ y, g.Block y → y ≠ b → blkAlloc m' y = blkAlloc h.mem y := fun y hy hne =>
    blkAlloc_congr (hheader y hy hne)
  have hsplit : ∃ l, Tiled (blkSize m') (c + 16) (sentOf h.mem c) l ∧
      ∀ y, y ∈ l ↔ y ∈ g.blocks c ∨ y = b + n :=
    hchunk.tiled.split hbc (by omega) (by omega) (by omega) (by omega) fun y hy hne =>
      hsize y ⟨c, hc, hy⟩ hne
  obtain ⟨l, htiled, hl⟩ := hsplit
  have hrest : ¬ g.Block (b + n) := by
    intro hr
    have := hi.disjoint hr hb (by omega)
    have := (hi.range hr).2.2.2
    omega
  have hblock : ∀ y, (∃ d ∈ g.chunks, y ∈ Function.update g.blocks c l d) ↔ g.Block y ∨ y = b + n := by
    intro y
    constructor
    · rintro ⟨d, hd, hy⟩
      by_cases hdc : d = c
      · subst hdc
        rw [Function.update_self, hl] at hy
        exact hy.imp_left fun hy => ⟨d, hd, hy⟩
      · rw [Function.update_of_ne hdc] at hy
        exact .inl ⟨d, hd, hy⟩
    · rintro (⟨d, hd, hy⟩ | rfl)
      · refine ⟨d, hd, ?_⟩
        by_cases hdc : d = c
        · subst hdc
          rw [Function.update_self, hl]
          exact .inl hy
        · rwa [Function.update_of_ne hdc]
      · refine ⟨c, hc, ?_⟩
        rw [Function.update_self, hl]
        exact .inr rfl
  refine ⟨Function.update g.blocks c l, ?_, hblock, hheader, hword _ (by omega) (by omega) (by omega)⟩
  have hinside : ∀ x, x < c + 16 ∨ c + chunkBytes h.mem c ≤ x → m' x = h.mem x := fun x hx =>
    hw.same x (by omega) (by omega) (by omega)
  have hpage := hchunk.page
  have hsentr : b + S ≤ sentOf h.mem c := by
    have := (hchunk.tiled.mem_range hbc).2.1
    omega
  have hsent16 := hchunk.aligned.1
  have hbytes : chunkBytes m' c = chunkBytes h.mem c :=
    wget_congr fun x h1 h2 => hinside x (by omega)
  have hsent : sentOf m' c = sentOf h.mem c := by
    unfold sentOf
    rw [hbytes]
  have hchunk' : ChunkInv m' { g with
      blocks := Function.update g.blocks c l, freed := [], live := b :: g.live, used := g.used + n
      held := fun y => y = b + n } c := by
    have hmem : ∀ y ∈ Function.update g.blocks c l c, y ∈ g.blocks c ∨ y = b + n := by
      intro y hy
      rwa [Function.update_self, hl] at hy
    exact
      { page := hpage
        pos := hchunk.pos
        size := hbytes.trans hchunk.size
        bytes := hbytes ▸ hchunk.bytes
        large := hbytes ▸ hchunk.large
        top := hbytes ▸ hchunk.top
        tiled := by
          change Tiled (blkSize m') (c + 16) (sentOf m' c) (Function.update g.blocks c l c)
          rw [Function.update_self, hsent]
          exact htiled
        min := fun y hy => by
          by_cases hyb : y = b
          · subst hyb
            omega
          · rcases hmem y hy with hyc | rfl
            · rw [hsize y ⟨c, hc, hyc⟩ hyb]
              exact hchunk.min y hyc
            · omega
        first := by
          have := hchunk.range hbc
          rw [hword _ (by omega) (by omega) (by omega)]
          exact hchunk.first
        prev := fun y hy _ => by
          by_cases hyb : y = b
          · subst hyb
            rw [hsizeb]
            exact hw.restPrev
          · rcases hmem y hy with hyc | rfl
            · have hyB : g.Block y := ⟨c, hc, hyc⟩
              rw [hsize y hyB hyb, hprevw y hyB hyb]
              refine hchunk.prev y hyc ?_
              have := (hi.range hyB).2.1
              omega
            · rw [hsizer]
              have hend : b + n + (S - n) + 8 = b + S + 8 := by omega
              rw [hend]
              exact hw.nextPrev
        sentinel := by
          rw [hsent, hword _ (by omega) (by omega) (by omega)]
          exact hchunk.sentinel
        apart := fun y hy hny hnn hf => by
          change ¬ y + blkSize m' y = b + n at hnn
          have hyb : y ≠ b := by
            rintro rfl
            omega
          rcases hmem y hy with hyc | rfl
          · have hyB : g.Block y := ⟨c, hc, hyc⟩
            rw [hsize y hyB hyb] at hnn ⊢
            rw [halloc y hyB hyb] at hf
            by_cases hynb : y + blkSize h.mem y = b
            · rw [hynb]
              exact hallocb
            · rw [blkAlloc_congr (hnextw y hyB hynb)]
              exact hchunk.apart y hyc (fun hh => hyb ((hheld y).1 hh)) (fun hh => hynb ((hheld _).1 hh)) hf
          · exact absurd rfl hny }
  obtain ⟨hfirst, hsep, hchunks⟩ := hi.edit hc hinside hchunk'
    (fun d hd => Function.update_of_ne hd ..) rfl
    (fun x hx _ hh => by
      obtain rfl := (hheld x).1 hh
      omega)
    (fun x hpos _ _ heq => by omega)
  have hnlive : ∀ y ∈ g.live, y ≠ b := by
    rintro y hy rfl
    rw [((hi.live y).1 hy).2] at hbf
    cases hbf
  refine
    { chunks := hfirst
      separate := hsep
      chunk := hchunks
      list := hi.list.congr (fun y hy => ?_) fun y hy => ?_
      nodup := hi.nodup
      free := fun y => ?_
      freed := nofun
      liveNodup := List.nodup_cons.2 ⟨fun hmem => hnlive b hmem rfl, hi.liveNodup⟩
      live := fun y => ?_
      used := ?_ }
  · obtain ⟨hyB, -, hny⟩ := (hi.free y).1 hy
    exact (hlinks y hyB fun heq => hny ((hheld y).2 heq)).1
  · obtain ⟨hyB, -, hny⟩ := (hi.free y).1 hy
    exact (hlinks y hyB fun heq => hny ((hheld y).2 heq)).2
  · change y ∈ g.free ↔
      (∃ d ∈ g.chunks, y ∈ Function.update g.blocks c l d) ∧ blkAlloc m' y = false ∧ ¬ y = b + n
    rw [hi.free, hblock, hheld]
    constructor
    · rintro ⟨hy, hf, hyb⟩
      refine ⟨.inl hy, (halloc y hy hyb).trans hf, ?_⟩
      rintro rfl
      exact hrest hy
    · rintro ⟨hy, hf, hyn⟩
      have hyB := hy.resolve_right hyn
      have hyb : y ≠ b := by
        rintro rfl
        rw [hallocb] at hf
        cases hf
      exact ⟨hyB, (halloc y hyB hyb).symm.trans hf, hyb⟩
  · change y ∈ b :: g.live ↔ (∃ d ∈ g.chunks, y ∈ Function.update g.blocks c l d) ∧ blkAlloc m' y = true
    rw [List.mem_cons, hi.live, hblock]
    by_cases hyb : y = b
    · subst hyb
      simp [hb, hallocb]
    · constructor
      · rintro (heq | ⟨hy, hal⟩)
        · exact absurd heq hyb
        · exact ⟨.inl hy, (halloc y hy hyb).trans hal⟩
      · rintro ⟨hy, hal⟩
        have hyn : y ≠ b + n := by
          rintro rfl
          rw [hallocr] at hal
          cases hal
        have hyB := hy.resolve_right hyn
        exact .inr ⟨hyB, (halloc y hyB hyb).symm.trans hal⟩
  · change g.used + n = ((b :: g.live).map (blkSize m')).sum
    rw [List.map_cons, List.sum_cons, hsizeb, Nat.add_comm, hi.used]
    exact congrArg (n + ·) (congrArg List.sum (List.map_congr_left fun y hy =>
      (hsize y ((hi.live y).1 hy).1 (hnlive y hy)).symm))

end HeapInv
end NewM2.M2Heap
