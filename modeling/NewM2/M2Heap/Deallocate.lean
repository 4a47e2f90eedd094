import NewM2.M2Heap.Resize

/-! # Deallocate keeps the invariant -/

namespace NewM2.M2Heap
namespace HeapInv
variable {h : Heap} {g : Ghost} {b n y : Nat}

theorem of_gInUse (hi : HeapInv h g) (n : Nat) : HeapInv { h with gInUse := n } g :=
  { hi with }

/-- The block `b` is being freed: marked free, off the list, and the block behind it may not know its
size. -/
structure Freeing (h : Heap) (g : Ghost) (b : Nat) : Prop where
  inv : HeapInv h g
  block : g.Block b
  held : ∀ y, g.held y ↔ y = b
  stale : g.stale = b
  free : blkAlloc h.mem b = false

namespace Freeing

/-- The block in front of `b`. -/
theorem prev_eq (hf : Freeing h g b) (hy : g.Block y) (hend : y + blkSize h.mem y = b) :
    wget h.mem (b + 8) = blkSize h.mem y := by
  have hmin := (hf.inv.range hy).2.2.2
  obtain ⟨c, hc, hyc⟩ := hy
  have := (hf.inv.chunk c hc).prev y hyc (by
    rw [hf.stale]
    omega)
  rwa [hend] at this

theorem exists_prev (hf : Freeing h g b) (hne : wget h.mem (b + 8) ≠ 0) :
    ∃ a, g.Block a ∧ a + blkSize h.mem a = b := by
  obtain ⟨c, hc, hbc⟩ := hf.block
  rcases (hf.inv.chunk c hc).tiled.prev hbc with rfl | ⟨a, ha, hab⟩
  · exact absurd (hf.inv.chunk c hc).first hne
  · exact ⟨a, ⟨c, hc, ha⟩, hab⟩

theorem ghost_eq (hf : Freeing h g b) : { g with held := fun y => y = b, stale := b } = g := by
  have hheld : g.held = fun y => y = b := funext fun y => propext (hf.held y)
  rw [← hheld, ← hf.stale]

theorem mem_free (hf : Freeing h g b) (hy : g.Block y) (hyf : blkAlloc h.mem y = false) (hne : y ≠ b) :
    y ∈ g.free := (hf.inv.free y).2 ⟨hy, hyf, fun hh => hne ((hf.held y).1 hh)⟩

theorem apart (hf : Freeing h g b) (hy : g.Block y) (hyf : blkAlloc h.mem y = false) (hne : y ≠ b)
    (hend : y + blkSize h.mem y ≠ b) : blkAlloc h.mem (y + blkSize h.mem y) = true := by
  obtain ⟨c, hc, hyc⟩ := hy
  exact (hf.inv.chunk c hc).apart y hyc (fun hh => hne ((hf.held y).1 hh))
    (fun hh => hend ((hf.held _).1 hh)) hyf

end Freeing

/-- A live block is not a free one. -/
theorem live_ne (hi : HeapInv h g) (hy : y ∈ g.live) (hb : blkAlloc h.mem b = false) : y ≠ b := by
  rintro rfl
  rw [((hi.live y).1 hy).2] at hb
  cases hb

/-- Take the free block `n` behind `b` off the list and merge it into `b`; one of the two is being
freed. -/
theorem absorb {x : Nat} (hf : Freeing h g x) (hb : g.Block b) (hn : g.Block (b + blkSize h.mem b))
    (hbf : blkAlloc h.mem b = false) (hnf : blkAlloc h.mem (b + blkSize h.mem b) = false)
    {other : Nat} (hother : other ∈ g.free)
    (hpair : ∀ y, y = x ∨ y = other ↔ y = b ∨ y = b + blkSize h.mem b) :
    ∃ blocks, Freeing
        { h.removeFree other with
          mem := wput (h.removeFree other).mem b
            (cadd (blkSize (h.removeFree other).mem b)
              (blkSize (h.removeFree other).mem (b + blkSize h.mem b))) }
        { g with
          blocks := blocks, free := g.free.erase other, held := fun y => y = b, stale := b } b ∧
      (∀ y, (∃ c ∈ g.chunks, y ∈ blocks c) ↔ g.Block y ∧ y ≠ b + blkSize h.mem b) ∧
      blkSize (wput (h.removeFree other).mem b
            (cadd (blkSize (h.removeFree other).mem b)
              (blkSize (h.removeFree other).mem (b + blkSize h.mem b)))) b =
        blkSize h.mem b + blkSize h.mem (b + blkSize h.mem b) ∧
      (∀ y, g.Block y → y ≠ b → wget (wput (h.removeFree other).mem b
            (cadd (blkSize (h.removeFree other).mem b)
              (blkSize (h.removeFree other).mem (b + blkSize h.mem b)))) y = wget h.mem y) ∧
      ∀ y, g.Block y → y + blkSize h.mem y ≠ b → wget (wput (h.removeFree other).mem b
            (cadd (blkSize (h.removeFree other).mem b)
              (blkSize (h.removeFree other).mem (b + blkSize h.mem b)))) (y + blkSize h.mem y) =
          wget h.mem (y + blkSize h.mem y) := by
  obtain ⟨hi₂, hlinks, -⟩ := hf.inv.removeFree_spec hother
  have hoff := hlinks.offPayload hf.inv
  have hword : ∀ y, g.Block y → wget (h.removeFree other).mem y = wget h.mem y := fun y hy =>
    (hoff.block hf.inv hy).1
  have hsizeb : blkSize (h.removeFree other).mem b = blkSize h.mem b := blkSize_congr (hword b hb)
  have hsizen : blkSize (h.removeFree other).mem (b + blkSize h.mem b) =
      blkSize h.mem (b + blkSize h.mem b) := blkSize_congr (hword _ hn)
  have hrn := hf.inv.range hn
  have hsum : cadd (blkSize h.mem b) (blkSize h.mem (b + blkSize h.mem b)) =
      blkSize h.mem b + blkSize h.mem (b + blkSize h.mem b) := cadd_eq (by omega)
  rw [hsizeb, hsizen, hsum]
  have hself := wget_wput_self (m := (h.removeFree other).mem) (a := b)
    (v := blkSize h.mem b + blkSize h.mem (b + blkSize h.mem b)) (by omega)
  obtain ⟨hnewsize, hnewfree⟩ := header_of_free (Nat.dvd_add dvd_blkSize dvd_blkSize) hself
  have hmerge := hi₂.merge (b := b) hb
    (by rw [hsizeb]; exact hn) ((blkAlloc_congr (hword b hb)).trans hbf)
    (by rw [hsizeb]; exact (blkAlloc_congr (hword _ hn)).trans hnf)
    (fun y => by
      rw [hsizeb]
      change g.held y ∨ y = other ↔ _
      rw [hf.held y]
      exact hpair y)
    (.inr (by
      change g.stale = b ∨ g.stale = _
      rw [hsizeb, hf.stale]
      exact (hpair x).1 (.inl rfl)))
  rw [hsizeb, hsizen] at hmerge
  obtain ⟨blocks, hinv, hblocks⟩ := hmerge
  obtain ⟨hw, -, hwn, -⟩ := hi₂.wput_header (b := b) hb
    (blkSize h.mem b + blkSize h.mem (b + blkSize h.mem b))
  refine ⟨blocks, ⟨hinv, (hblocks b).2 ⟨hb, ?_⟩, fun y => Iff.rfl, rfl, hnewfree⟩, hblocks, hnewsize,
    fun y hy hne => (hw y hy hne).trans (hword y hy), fun y hy hne => ?_⟩
  · have := (hf.inv.range hb).2.2.2
    omega
  · have hsizey : blkSize (h.removeFree other).mem y = blkSize h.mem y := blkSize_congr (hword y hy)
    have := hwn y hy (by rwa [hsizey])
    rw [hsizey] at this
    exact this.trans (hoff.next hf.inv hy).1

/-- Behind `b` is no free block. -/
theorem coalesceForward_spec (hf : Freeing h g b) :
    ∃ blocks free, Freeing (h.coalesceForward b) { g with blocks := blocks, free := free } b ∧
      blkAlloc (h.coalesceForward b).mem (b + blkSize (h.coalesceForward b).mem b) = true ∧
      (h.coalesceForward b).gInUse = h.gInUse ∧
      ∀ y ∈ g.live, wget (h.coalesceForward b).mem y = wget h.mem y := by
  have hrb := hf.inv.range hf.block
  unfold Heap.coalesceForward
  rw [off_eq (by omega)]
  dsimp only
  by_cases halloc : blkAlloc h.mem (b + blkSize h.mem b) = true
  · rw [if_pos halloc]
    exact ⟨g.blocks, g.free, hf, halloc, rfl, fun _ _ => rfl⟩
  · rw [if_neg halloc]
    have hnf : blkAlloc h.mem (b + blkSize h.mem b) = false := Bool.eq_false_iff.2 halloc
    have hn := hf.inv.block_next hf.block hnf
    have hrn := hf.inv.range hn
    have hne : b + blkSize h.mem b ≠ b := by omega
    obtain ⟨blocks, hfree, -, hsize, hword, hnext⟩ := absorb hf hf.block hn hf.free hnf
      (hf.mem_free hn hnf hne) fun y => Iff.rfl
    have hghost : { g with
        blocks := blocks, free := g.free.erase (b + blkSize h.mem b), held := fun y => y = b
        stale := b } = { g with blocks := blocks, free := g.free.erase (b + blkSize h.mem b) } :=
      congrArg (fun g : Ghost => { g with
        blocks := blocks, free := g.free.erase (b + blkSize h.mem b) }) hf.ghost_eq
    refine ⟨blocks, _, hghost ▸ hfree, ?_, (removeFree_rest h _).2, fun y hy =>
      hword y ((hf.inv.live y).1 hy).1 (hf.inv.live_ne hy hf.free)⟩
    rw [hsize, ← Nat.add_assoc, blkAlloc_congr (hnext _ hn (by omega))]
    exact hf.apart hn hnf hne (by omega)

/-- In front of `b` is no free block either. -/
theorem coalesceBackward_spec (hf : Freeing h g b)
    (hnext : blkAlloc h.mem (b + blkSize h.mem b) = true) :
    ∃ blocks free, Freeing (h.coalesceBackward b).1
        { g with
          blocks := blocks, free := free, held := fun y => y = (h.coalesceBackward b).2
          stale := (h.coalesceBackward b).2 } (h.coalesceBackward b).2 ∧
      blkAlloc (h.coalesceBackward b).1.mem ((h.coalesceBackward b).2 +
        blkSize (h.coalesceBackward b).1.mem (h.coalesceBackward b).2) = true ∧
      (∀ y, (∃ c ∈ g.chunks, y ∈ blocks c) →
        y + blkSize (h.coalesceBackward b).1.mem y = (h.coalesceBackward b).2 →
        blkAlloc (h.coalesceBackward b).1.mem y = true) ∧
      (h.coalesceBackward b).1.gInUse = h.gInUse ∧
      ∀ y ∈ g.live, wget (h.coalesceBackward b).1.mem y = wget h.mem y := by
  have hrb := hf.inv.range hf.block
  have hkeep : Freeing h { g with held := fun y => y = b, stale := b } b := by
    rw [hf.ghost_eq]
    exact hf
  unfold Heap.coalesceBackward blkPrev
  rw [off_eq (by omega)]
  dsimp only
  by_cases hps : wget h.mem (b + 8) = 0
  · rw [if_pos hps]
    refine ⟨g.blocks, g.free, hkeep, hnext, fun y hy hend => ?_, rfl, fun _ _ => rfl⟩
    have := hf.prev_eq hy hend
    have := (hf.inv.range hy).2.2.2
    omega
  · rw [if_neg hps]
    obtain ⟨a, ha, hab⟩ := hf.exists_prev hps
    have hprev := hf.prev_eq ha hab
    have hra := hf.inv.range ha
    rw [hprev, offN_eq (by omega) (by omega), show b - blkSize h.mem a = a by omega]
    by_cases halloc : blkAlloc h.mem a = true
    · rw [if_pos halloc]
      refine ⟨g.blocks, g.free, hkeep, hnext, fun y hy hend => ?_, rfl, fun _ _ => rfl⟩
      change y + blkSize h.mem y = b at hend
      by_cases hya : y = a
      · rwa [hya]
      · have := hf.inv.disjoint hy ha hya
        have := (hf.inv.range hy).2.2.2
        omega
    · rw [if_neg halloc]
      have haf : blkAlloc h.mem a = false := Bool.eq_false_iff.2 halloc
      have hne : a ≠ b := by omega
      obtain ⟨blocks, hfree, hblocks, hsize, hword, hnextw⟩ := absorb hf ha (hab.symm ▸ hf.block) haf
        (hab.symm ▸ hf.free) (hf.mem_free ha haf hne) fun y => by
          rw [hab]
          exact or_comm
      rw [hab] at hfree hblocks hsize hword hnextw
      refine ⟨blocks, _, hfree, ?_, fun y hy hend => ?_, (removeFree_rest h _).2, fun y hy =>
        hword y ((hf.inv.live y).1 hy).1 (hf.inv.live_ne hy haf)⟩
      · rw [hsize, ← Nat.add_assoc, hab, blkAlloc_congr (hnextw b hf.block (by omega))]
        exact hnext
      · obtain ⟨hyB, hyb⟩ := (hblocks y).1 hy
        have hya : y ≠ a := by
          rintro rfl
          rw [hsize] at hend
          omega
        rw [blkSize_congr (hword y hyB hya)] at hend
        rw [blkAlloc_congr (hword y hyB hya)]
        by_contra hyf
        have := hf.apart hyB (Bool.eq_false_iff.2 hyf) hyb (by omega)
        rw [hend] at this
        exact halloc this

end HeapInv

/-- Between the operations. -/
structure Ready (h : Heap) (g : Ghost) : Prop where
  inv : HeapInv h g
  held : ∀ y, ¬ g.held y
  stale : g.stale = 0
  used : h.gInUse = g.used

namespace Ready
variable {h : Heap} {g : Ghost} {b : Nat}

theorem apart (hr : Ready h g) (hb : g.Block b) (hf : blkAlloc h.mem b = false) :
    blkAlloc h.mem (b + blkSize h.mem b) = true := by
  obtain ⟨c, hc, hbc⟩ := hb
  exact (hr.inv.chunk c hc).apart b hbc (hr.held b) (hr.held _) hf

theorem freed_ne (hr : Ready h g) (hb : b ∈ g.live) : b ∉ g.freed := by
  intro hmem
  have := ((hr.inv.live b).1 hb).2
  rw [(hr.inv.freed b hmem).1] at this
  cases this

/-- The block is marked free. -/
theorem freeing (hr : Ready h g) (hb : b ∈ g.live) :
    HeapInv.Freeing
      { h with gInUse := csub h.gInUse (blkSize h.mem b), mem := wput h.mem b (blkSize h.mem b) }
      { g with
        freed := b :: g.freed, live := g.live.erase b, used := g.used - blkSize h.mem b
        held := fun y => y = b, stale := b } b ∧
      csub h.gInUse (blkSize h.mem b) = g.used - blkSize h.mem b := by
  have hi := hr.inv
  obtain ⟨hbB, hba⟩ := (hi.live b).1 hb
  have hlt := blkSize_lt h.mem b
  have h16 : 16 ∣ blkSize h.mem b := dvd_blkSize
  have hmod : blkSize h.mem b % 2 = 0 := by omega
  have hfreedne : ∀ y ∈ g.freed, y ≠ b := by
    rintro y hy rfl
    exact hr.freed_ne hb hy
  have hsum : blkSize h.mem b + ((g.live.erase b).map (blkSize h.mem)).sum =
      (g.live.map (blkSize h.mem)).sum := List.sum_map_erase _ hb
  have hmark : HeapInv { h with mem := wput h.mem b (blkSize h.mem b) }
      ⟨g.chunks, g.blocks, g.bytes, g.free, b :: g.freed, g.live.erase b, g.used - blkSize h.mem b,
        fun y => y = b, b⟩ := hi.mark hbB hlt (Nat.div_mul_cancel h16)
    (fun y hy _ => by
      rw [hr.stale]
      exact hi.free_ne_zero hy) rfl
    (fun y => by
      rw [hi.free]
      refine and_congr_right fun _ => ?_
      by_cases hyb : y = b
      · subst hyb
        simp [hba]
      · simp [hyb, hr.held y])
    (fun y hy => by
      rcases List.mem_cons.1 hy with rfl | hy
      · exact .inr ⟨rfl, hmod⟩
      · exact .inl ⟨hi.freed y hy, hfreedne y hy, hmod⟩)
    (hi.liveNodup.erase b)
    (fun y => by
      rw [hi.liveNodup.mem_erase_iff, hi.live]
      by_cases hyb : y = b
      · simp [hyb, hmod]
      · simp [hyb])
    (by
      have := hi.used
      omega)
    (fun y hy hny hnn hyb hf => .inr ⟨hnn, hr.apart hy hf⟩)
    (fun hnb => absurd rfl hnb)
  have hself := wget_wput_self (m := h.mem) (a := b) hlt
  have hle := hi.size_le_used hb
  have hused := hi.used_lt
  refine ⟨⟨hmark.of_gInUse _, hbB, fun y => Iff.rfl, rfl, (header_of_free h16 hself).2⟩, ?_⟩
  rw [hr.used]
  exact csub_eq hle hused

/-- Freeing a live block. -/
theorem deallocate_spec (hr : Ready h g) (hb : b ∈ g.live) :
    ∃ blocks free, Ready (h.deallocate (b + 16))
      { g with
        blocks := blocks, free := free, freed := b :: g.freed, live := g.live.erase b
        used := g.used - blkSize h.mem b } ∧
      ∀ y ∈ g.live.erase b, wget (h.deallocate (b + 16)).mem y = wget h.mem y := by
  obtain ⟨hbB, hba⟩ := (hr.inv.live b).1 hb
  have hrb := hr.inv.range hbB
  obtain ⟨hfree₁, hused⟩ := hr.freeing hb
  obtain ⟨blocks₂, free₂, hfree₂, hnext₂, hused₂, hlive₂⟩ := HeapInv.coalesceForward_spec hfree₁
  obtain ⟨blocks₃, free₃, hfree₃, hnext₃, hprev₃, hused₃, hlive₃⟩ := HeapInv.coalesceBackward_spec hfree₂ hnext₂
  unfold Heap.deallocate
  rw [if_neg (by omega), offN_eq (by unfold hdr; omega) (by omega), show b + 16 - hdr = b by rfl]
  dsimp only
  rw [hba, if_neg (by decide)]
  generalize Heap.coalesceForward _ b = h₂ at *
  generalize hback : h₂.coalesceBackward b = r at *
  obtain ⟨h₃, b'⟩ := r
  dsimp only at *
  have hrb' := hfree₃.inv.range hfree₃.block
  have hnb : off b' (blkSize h₃.mem b') = b' + blkSize h₃.mem b' := off_eq (by omega)
  rw [hnb, off_eq (by omega)]
  obtain ⟨hfix, hword⟩ := hfree₃.inv.fixPrev hfree₃.block rfl
  have hsize : ∀ y, Ghost.Block { g with blocks := blocks₃ } y →
      blkSize (wput h₃.mem (b' + blkSize h₃.mem b' + 8) (blkSize h₃.mem b')) y = blkSize h₃.mem y :=
    fun y hy => blkSize_congr (hword y hy).1
  obtain ⟨hins, hlinks, hused₄⟩ := hfix.insertFree_spec hfree₃.block rfl
    ((blkAlloc_congr (hword b' hfree₃.block).1).trans hfree₃.free)
    (by
      change blkAlloc (wput h₃.mem (b' + blkSize h₃.mem b' + 8) (blkSize h₃.mem b'))
        (b' + blkSize (wput h₃.mem (b' + blkSize h₃.mem b' + 8) (blkSize h₃.mem b')) b') = true
      rw [hsize b' hfree₃.block, blkAlloc_congr (hword b' hfree₃.block).2]
      exact hnext₃)
    (fun y hy hend => by
      change y + blkSize (wput h₃.mem (b' + blkSize h₃.mem b' + 8) (blkSize h₃.mem b')) y = b' at hend
      change blkAlloc (wput h₃.mem (b' + blkSize h₃.mem b' + 8) (blkSize h₃.mem b')) y = true
      rw [hsize y hy] at hend
      rw [blkAlloc_congr (hword y hy).1]
      exact hprev₃ y hy hend)
  have hheld : (fun y => y = b' ∧ y ≠ b') = g.held :=
    funext fun y => propext ⟨fun hy => absurd hy.1 hy.2, fun hy => absurd hy (hr.held y)⟩
  refine ⟨blocks₃, b' :: free₃, ⟨?_, hr.held, hr.stale, ?_⟩, fun y hy => ?_⟩
  · rw [hr.stale.symm, hheld] at hins
    exact hins
  · rw [hused₄]
    exact hused₃.trans (hused₂.trans hused)
  · have hyB := ((hfree₃.inv.live y).1 hy).1
    have hyb : y ≠ b := hfree₁.inv.live_ne hy hfree₁.free
    have hself : wget (wput h.mem b (blkSize h.mem b)) y = wget h.mem y :=
      (hr.inv.wput_header hbB _).1 y ((hr.inv.live y).1 (List.mem_of_mem_erase hy)).1 hyb
    exact ((hlinks.offPayload hfix).block hfix hyB).1.trans ((hword y hyB).1.trans ((hlive₃ y hy).trans ((hlive₂ y hy).trans hself)))

end Ready
end NewM2.M2Heap
