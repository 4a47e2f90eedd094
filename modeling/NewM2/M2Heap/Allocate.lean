import NewM2.M2Heap.Deallocate

/-! # Allocate keeps the invariant -/

namespace NewM2.M2Heap

/-! ## First fit -/

section findFit
variable {m : Mem} {need p b : Nat} {l : List Nat}

theorem findFitFrom_spec (hc : DChain (fNext m) (fPrev m) p b l) {fuel r : Nat}
    (h : Heap.findFitFrom m need fuel b = some r) :
    r = 0 ∧ (∀ y ∈ l, blkSize m y < need) ∨ r ∈ l ∧ r ≠ 0 ∧ need ≤ blkSize m r := by
  induction fuel generalizing p b l with
  | zero => cases h
  | succ fuel ih =>
    unfold Heap.findFitFrom at h
    cases l with
    | nil =>
      have hb : b = 0 := hc
      rw [if_pos hb] at h
      cases h
      exact .inl ⟨rfl, nofun⟩
    | cons x l =>
      obtain ⟨rfl, hx, -, hc⟩ := hc
      rw [if_neg hx] at h
      split at h
      next hfit =>
        cases h
        exact .inr ⟨List.mem_cons_self, hx, hfit⟩
      next hfit =>
        rcases ih hc h with ⟨hr, hsmall⟩ | ⟨hr, hrest⟩
        · refine .inl ⟨hr, fun y hy => ?_⟩
          rcases List.mem_cons.1 hy with rfl | hy
          · exact Nat.lt_of_not_ge hfit
          · exact hsmall y hy
        · exact .inr ⟨List.mem_cons_of_mem _ hr, hrest⟩

/-- The search ends with the list. -/
theorem isSome_findFitFrom (hc : DChain (fNext m) (fPrev m) p b l) {fuel : Nat} (h : l.length < fuel) :
    (Heap.findFitFrom m need fuel b).isSome := by
  induction fuel generalizing p b l with
  | zero => exact absurd h (Nat.not_lt_zero _)
  | succ fuel ih =>
    unfold Heap.findFitFrom
    cases l with
    | nil =>
      have hb : b = 0 := hc
      rw [if_pos hb]
      rfl
    | cons x l =>
      obtain ⟨rfl, hx, -, hc⟩ := hc
      rw [if_neg hx]
      split
      · rfl
      · exact ih hc (by rw [List.length_cons] at h; omega)

end findFit

/-! ## Zeroing -/

theorem zeroPayload_spec {p : Nat} : ∀ (turns i : Nat) (m : Mem), p + i + 8 * turns ≤ 2 ^ 64 →
    (∀ x, x < p + i ∨ p + i + 8 * turns ≤ x → Heap.zeroPayload p turns i m x = m x) ∧
      ∀ x, p + i ≤ x → x < p + i + 8 * turns → Heap.zeroPayload p turns i m x = 0 := by
  intro turns
  induction turns with
  | zero => exact fun i m _ => ⟨fun x _ => rfl, fun x h1 h2 => by omega⟩
  | succ turns ih =>
    intro i m hle
    unfold Heap.zeroPayload
    rw [off_eq (by omega)]
    obtain ⟨hout, hin⟩ := ih (i + 8) (wput m (p + i) 0) (by omega)
    refine ⟨fun x hx => ?_, fun x h1 h2 => ?_⟩
    · rw [hout x (by omega)]
      exact wput_of_apart (by omega)
    · by_cases hx : p + (i + 8) ≤ x
      · exact hin x hx (by omega)
      · rw [hout x (by omega)]
        exact Mem.write_zero_of_mem m h1 (by omega)

/-- Zeroing the payload of a new block. -/
theorem HeapInv.zeroed {h : Heap} {g : Ghost} {b need : Nat} (hi : HeapInv h g) (hb : b ∈ g.live)
    (hfreed : g.freed = []) (hdvd : 16 ∣ need) (hle : need + 16 ≤ blkSize h.mem b) :
    HeapInv { h with mem := Heap.zeroPayload (off b hdr) (need / 8) 0 h.mem } g ∧
      (∀ y, g.Block y → wget (Heap.zeroPayload (off b hdr) (need / 8) 0 h.mem) y = wget h.mem y) ∧
      ∀ x, b + 16 ≤ x → x < b + 16 + need → Heap.zeroPayload (off b hdr) (need / 8) 0 h.mem x = 0 := by
  obtain ⟨hbB, hba⟩ := (hi.live b).1 hb
  have hrb := hi.range hbB
  have hp : off b hdr = b + 16 := off_eq (by unfold hdr; omega)
  rw [hp]
  obtain ⟨hout, hin⟩ := zeroPayload_spec (p := b + 16) (need / 8) 0 h.mem (by omega)
  have hoff : OffPayload g h.mem (Heap.zeroPayload (b + 16) (need / 8) 0 h.mem) := by
    intro x hx
    have := hx b hbB
    exact hout x (by omega)
  -- a free block is not `b`, so its links are elsewhere
  have hlinks : ∀ y ∈ g.free, fNext (Heap.zeroPayload (b + 16) (need / 8) 0 h.mem) y = fNext h.mem y ∧
      fPrev (Heap.zeroPayload (b + 16) (need / 8) 0 h.mem) y = fPrev h.mem y := by
    intro y hy
    obtain ⟨hyB, hyf, -⟩ := (hi.free y).1 hy
    have hry := hi.range hyB
    have hdis := hi.disjoint hyB hbB (hi.live_ne hb hyf).symm
    unfold fNext fPrev
    rw [(hi.off_link hyB).1, (hi.off_link hyB).2]
    exact ⟨wget_congr fun x h1 h2 => hout x (by omega), wget_congr fun x h1 h2 => hout x (by omega)⟩
  refine ⟨?_, fun y hy => (hoff.block hi hy).1, fun x h1 h2 => hin x (by omega) (by omega)⟩
  refine hi.payload hoff (hi.list.congr (fun y hy => (hlinks y hy).1) fun y hy => (hlinks y hy).2)
    hi.nodup hi.free (fun y hy => ?_) fun y hy hny hnn hf => ?_
  · rw [hfreed] at hy
    cases hy
  · obtain ⟨c, hc, hyc⟩ := hy
    exact (hi.chunk c hc).apart y hyc hny hnn hf

namespace Ready
variable {h : Heap} {g : Ghost} {b n need : Nat}

/-- The block is off the list, and nothing else changed. -/
theorem removeFree (hr : Ready h g) (hb : b ∈ g.free) :
    HeapInv (h.removeFree b) { g with free := g.free.erase b, held := fun y => y = b } ∧
      (∀ y, g.Block y → wget (h.removeFree b).mem y = wget h.mem y ∧
        wget (h.removeFree b).mem (y + blkSize h.mem y) = wget h.mem (y + blkSize h.mem y)) ∧
      (h.removeFree b).gInUse = h.gInUse := by
  obtain ⟨hi, hlinks, hused⟩ := hr.inv.removeFree_spec hb
  have hoff := hlinks.offPayload hr.inv
  have hheld : (fun y => g.held y ∨ y = b) = fun y => y = b :=
    funext fun y => propext ⟨fun hy => hy.resolve_left (hr.held y), .inr⟩
  rw [hheld] at hi
  exact ⟨hi, fun y hy => ⟨(hoff.block hr.inv hy).1, (hoff.next hr.inv hy).1⟩, hused⟩

/-- Behind its links the block that is taken off the list is untouched. -/
theorem removeFree_rest (hr : Ready h g) (hb : b ∈ g.free) {x : Nat} (h1 : b + 32 ≤ x)
    (h2 : x < b + blkSize h.mem b) : (h.removeFree b).mem x = h.mem x := by
  have hbB := hr.inv.mem_free hb
  refine (hr.inv.removeFree_spec hb).2.1 x fun y hy => ?_
  by_cases hyb : y = b
  · exact .inr (hyb ▸ h1)
  · have := hr.inv.disjoint hy hbB hyb
    have := (hr.inv.range hy).2.2.2
    omega

/-- Taking the whole block. -/
theorem takeWhole (hr : Ready h g) (hb : b ∈ g.free) :
    HeapInv { h.removeFree b with
        mem := wput (h.removeFree b).mem b (blkSize (h.removeFree b).mem b ||| allocFlag) }
      { g with
        free := g.free.erase b, freed := [], live := b :: g.live
        used := g.used + blkSize h.mem b } ∧
      blkSize (wput (h.removeFree b).mem b (blkSize (h.removeFree b).mem b ||| allocFlag)) b =
        blkSize h.mem b ∧
      ∀ y ∈ g.live, wget (wput (h.removeFree b).mem b
        (blkSize (h.removeFree b).mem b ||| allocFlag)) y = wget h.mem y := by
  obtain ⟨hbB, hbf, -⟩ := (hr.inv.free b).1 hb
  obtain ⟨hi, hword, -⟩ := hr.removeFree hb
  have hsize : ∀ y, g.Block y → blkSize (h.removeFree b).mem y = blkSize h.mem y := fun y hy =>
    blkSize_congr (hword y hy).1
  have halloc : ∀ y, g.Block y → blkAlloc (h.removeFree b).mem y = blkAlloc h.mem y := fun y hy =>
    blkAlloc_congr (hword y hy).1
  have h16 : 16 ∣ blkSize h.mem b := dvd_blkSize
  have hlt := (hr.inv.range hbB).2.2.1
  have hor : blkSize (h.removeFree b).mem b ||| allocFlag = blkSize h.mem b + 1 := by
    rw [hsize b hbB, or_allocFlag h16]
  rw [hor]
  have hmod : (blkSize h.mem b + 1) % 2 = 1 := by omega
  have hlive : ∀ y ∈ g.live, y ≠ b := fun y hy => hr.inv.live_ne hy hbf
  have hheld : g.held = fun _ => False := funext fun y => propext ⟨hr.held y, False.elim⟩
  refine ⟨?_, ?_, fun y hy => ?_⟩
  · rw [hheld]
    refine hi.mark (b := b) hbB (by omega) (by rw [hsize b hbB]; omega)
      (fun y _ hne => hne) rfl (fun y => ?_) nofun
      (List.nodup_cons.2 ⟨fun hmem => hlive b hmem rfl, hr.inv.liveNodup⟩) (fun y => ?_) ?_
      (fun y hy _ _ hyb hf => ?_) fun _ _ hmod' => ?_
    · rw [hr.inv.nodup.mem_erase_iff, hr.inv.free]
      change _ ↔ g.Block y ∧ (if y = b then (blkSize h.mem b + 1) % 2 = 0 else
        blkAlloc (h.removeFree b).mem y = false) ∧ ¬ False
      by_cases hyb : y = b
      · simp [hyb, hmod]
      · simp only [hyb, if_false, not_false_eq_true, and_true, ne_eq, true_and]
        exact ⟨fun hy => ⟨hy.1, (halloc y hy.1).trans hy.2.1⟩, fun hy =>
          ⟨hy.1, (halloc y hy.1).symm.trans hy.2, hr.held y⟩⟩
    · rw [List.mem_cons, hr.inv.live]
      change _ ↔ g.Block y ∧ (if y = b then (blkSize h.mem b + 1) % 2 = 1 else
        blkAlloc (h.removeFree b).mem y = true)
      by_cases hyb : y = b
      · simp [hyb, hmod, hbB]
      · simp only [hyb, if_false, false_or]
        exact and_congr_right fun hy => by rw [halloc y hy]
    · rw [List.map_cons, List.sum_cons, hsize b hbB, Nat.add_comm, hr.inv.used]
      exact congrArg (blkSize h.mem b + ·) (congrArg List.sum (List.map_congr_left fun y hy =>
        (hsize y ((hr.inv.live y).1 hy).1).symm))
    · rw [hsize y hy]
      rw [halloc y hy] at hf
      have hnext := hr.apart hy hf
      by_cases hynb : y + blkSize h.mem y = b
      · exact .inl ⟨hynb, hmod⟩
      · exact .inr ⟨hynb, (blkAlloc_congr (hword y hy).2).trans hnext⟩
    · omega
  · rw [blkSize_eq, wget_wput_self (by omega)]
    omega
  · have hyB := ((hr.inv.live y).1 hy).1
    exact ((hi.wput_header hbB _).1 y hyB (hlive y hy)).trans (hword y hyB).1

/-- What the split writes. -/
theorem cutWrites {m : Mem} {S : Nat} (hdvd : 16 ∣ n) (hmin : 32 ≤ n) (hle : n + 32 ≤ S)
    (htop : b + S + 16 ≤ 2 ^ 64) (hS : 16 ∣ S) (hb : 16 ∣ b) :
    HeapInv.CutWrites m (wput (setHdr (wput m b (n ||| allocFlag)) (off b n) (csub S n) false n)
      (off (off (off b n) (csub S n)) 8) (csub S n)) b n S := by
  have hn1 : n ||| allocFlag = n + 1 := or_allocFlag hdvd
  have hend : b + n + (S - n) = b + S := by omega
  have hnext : off (b + n) (S - n) = b + S := (off_eq (by omega)).trans hend
  rw [csub_eq (by omega) (by omega), off_eq (by omega), hnext, off_eq (by omega)]
  unfold setHdr
  rw [if_neg (by decide), off_eq (by omega), hn1]
  refine ⟨?_, ?_, ?_, ?_, fun x h1 h2 h3 => ?_⟩
  · rw [wget_wput_of_apart (by omega), wget_wput_of_apart (by omega), wget_wput_of_apart (by omega),
      wget_wput_self (by omega), hn1]
  · rw [wget_wput_of_apart (by omega), wget_wput_of_apart (by omega), wget_wput_self (by omega)]
  · rw [wget_wput_of_apart (by omega), wget_wput_self (by omega)]
  · exact wget_wput_self (by omega)
  · rw [wput_of_apart (by omega), wput_of_apart (by omega), wput_of_apart (by omega),
      wput_of_apart (by omega)]

/-- Splitting the block. -/
theorem takeSplit (hr : Ready h g) (hb : b ∈ g.free) (hdvd : 16 ∣ n) (hmin : 32 ≤ n)
    (hle : n + 32 ≤ blkSize h.mem b) {m' : Mem}
    (hw : HeapInv.CutWrites (h.removeFree b).mem m' b n (blkSize h.mem b)) :
    ∃ blocks, HeapInv ({ h.removeFree b with mem := m' }.insertFree (b + n))
        { g with
          blocks := blocks, free := (b + n) :: g.free.erase b, freed := [], live := b :: g.live
          used := g.used + n } ∧
      blkSize ({ h.removeFree b with mem := m' }.insertFree (b + n)).mem b = n ∧
      ∀ y ∈ g.live, wget ({ h.removeFree b with mem := m' }.insertFree (b + n)).mem y = wget h.mem y := by
  obtain ⟨hbB, hbf, -⟩ := (hr.inv.free b).1 hb
  obtain ⟨hi, hword, -⟩ := hr.removeFree hb
  have hrb := hr.inv.range hbB
  have hS : blkSize (h.removeFree b).mem b = blkSize h.mem b := blkSize_congr (hword b hbB).1
  obtain ⟨blocks, hcut, hblocks, hheader, hnext⟩ := hi.cut (b := b) (n := n) hbB
    (fun y => Iff.rfl) hr.stale
    ((blkAlloc_congr (hword b hbB).1).trans hbf) hdvd hmin (by rw [hS]; exact hle) (by rw [hS]; exact hw)
  rw [hS] at hnext
  obtain ⟨hsizeb, hallocb⟩ := header_of_alloc hdvd hw.header
  obtain ⟨hsizer, hallocr⟩ := header_of_free (Nat.dvd_sub (dvd_blkSize) hdvd) hw.rest
  have hold : ∀ y, g.Block y → y ≠ b → wget m' y = wget h.mem y := fun y hy hne =>
    (hheader y hy hne).trans (hword y hy).1
  have hrest : ∃ c ∈ g.chunks, b + n ∈ blocks c := (hblocks _).2 (.inr rfl)
  obtain ⟨hins, hlinks, -⟩ := hcut.insertFree_spec (b := b + n) hrest rfl hallocr
    (by
      change blkAlloc m' (b + n + blkSize m' (b + n)) = true
      rw [hsizer, show b + n + (blkSize h.mem b - n) = b + blkSize h.mem b by omega,
        blkAlloc_congr (hnext.trans (hword b hbB).2)]
      exact hr.apart hbB hbf)
    (fun y hy hend => by
      change y + blkSize m' y = b + n at hend
      change blkAlloc m' y = true
      by_cases hyb : y = b
      · subst hyb
        exact hallocb
      · rcases (hblocks y).1 hy with hyB | rfl
        · rw [blkSize_congr (hold y hyB hyb)] at hend
          have := hr.inv.disjoint hyB hbB hyb
          omega
        · omega)
  have hheld : (fun y => y = b + n ∧ y ≠ b + n) = g.held :=
    funext fun y => propext ⟨fun hy => absurd hy.1 hy.2, fun hy => absurd hy (hr.held y)⟩
  have hkeep : ∀ y, Ghost.Block { g with blocks := blocks } y →
      wget ({ h.removeFree b with mem := m' }.insertFree (b + n)).mem y = wget m' y := fun y hy =>
    ((hlinks.offPayload hcut).block hcut hy).1
  refine ⟨blocks, ?_, ?_, fun y hy => ?_⟩
  · rw [hheld] at hins
    exact hins
  · exact (blkSize_congr (hkeep b ((hblocks b).2 (.inl hbB)))).trans hsizeb
  · have hyB := ((hr.inv.live y).1 hy).1
    exact (hkeep y ((hblocks y).2 (.inl hyB))).trans (hold y hyB (hr.inv.live_ne hy hbf))

/-- Taking the block that was found. A block that is 16 bytes too large is not split; its end is left as it is. -/
theorem take_spec (hr : Ready h g) (hb : b ∈ g.free) (hdvd : 16 ∣ need) (hmin : 16 ≤ need)
    (hle : need + 16 ≤ blkSize h.mem b) :
    ∃ blocks free, Ready (h.take b (need + 16) need).1
        { g with
          blocks := blocks, free := free, freed := [], live := b :: g.live
          used := g.used + blkSize (h.take b (need + 16) need).1.mem b } ∧
      (h.take b (need + 16) need).2 = b + 16 ∧
      need + 16 ≤ blkSize (h.take b (need + 16) need).1.mem b ∧
      (∀ y ∈ g.live, wget (h.take b (need + 16) need).1.mem y = wget h.mem y) ∧
      (∀ x, b + 16 ≤ x → x < b + 16 + need → (h.take b (need + 16) need).1.mem x = 0) ∧
      blkSize (h.take b (need + 16) need).1.mem b =
        (if blkSize h.mem b < need + 48 then blkSize h.mem b else need + 16) ∧
      ∀ x, b + 16 + need ≤ x → x < b + blkSize (h.take b (need + 16) need).1.mem b →
        (h.take b (need + 16) need).1.mem x = h.mem x := by
  obtain ⟨hbB, hbf, -⟩ := (hr.inv.free b).1 hb
  have hrb := hr.inv.range hbB
  obtain ⟨hi, hword, hused⟩ := hr.removeFree hb
  have hS : blkSize (h.removeFree b).mem b = blkSize h.mem b := blkSize_congr (hword b hbB).1
  have h16 : 16 ∣ blkSize h.mem b := dvd_blkSize
  -- both ways leave an allocated block at `b` that is large enough
  have htaken : ∀ {h₁ : Heap} {blocks free size},
      HeapInv h₁ { g with
        blocks := blocks, free := free, freed := [], live := b :: g.live, used := g.used + size } →
      blkSize h₁.mem b = size → need + 16 ≤ size → h₁.gInUse = h.gInUse →
      (∀ y ∈ g.live, wget h₁.mem y = wget h.mem y) →
      size = (if blkSize h.mem b < need + 48 then blkSize h.mem b else need + 16) →
      (∀ x, b + 16 + need ≤ x → x < b + size → h₁.mem x = h.mem x) →
      ∃ blocks free, Ready
          { h₁ with
            gInUse := cadd h₁.gInUse (blkSize h₁.mem b)
            mem := Heap.zeroPayload (off b hdr) (need / 8) 0 h₁.mem }
          { g with
            blocks := blocks, free := free, freed := [], live := b :: g.live
            used := g.used + blkSize (Heap.zeroPayload (off b hdr) (need / 8) 0 h₁.mem) b } ∧
        off b hdr = b + 16 ∧
        need + 16 ≤ blkSize (Heap.zeroPayload (off b hdr) (need / 8) 0 h₁.mem) b ∧
        (∀ y ∈ g.live, wget (Heap.zeroPayload (off b hdr) (need / 8) 0 h₁.mem) y = wget h.mem y) ∧
        (∀ x, b + 16 ≤ x → x < b + 16 + need →
          Heap.zeroPayload (off b hdr) (need / 8) 0 h₁.mem x = 0) ∧
        blkSize (Heap.zeroPayload (off b hdr) (need / 8) 0 h₁.mem) b =
          (if blkSize h.mem b < need + 48 then blkSize h.mem b else need + 16) ∧
        ∀ x, b + 16 + need ≤ x → x < b + blkSize (Heap.zeroPayload (off b hdr) (need / 8) 0 h₁.mem) b →
          Heap.zeroPayload (off b hdr) (need / 8) 0 h₁.mem x = h.mem x := by
    intro h₁ blocks free size hi₁ hsize hfit hsame hkeep htaken hrest
    subst hsize
    have hbl : b ∈ b :: g.live := List.mem_cons_self
    obtain ⟨hz, hzword, hzero⟩ := hi₁.zeroed hbl rfl hdvd hfit
    have hsizeb := blkSize_congr (hzword b ((hi₁.live b).1 hbl).1)
    have hp : off b hdr = b + 16 := off_eq (by unfold hdr; omega)
    refine ⟨blocks, free, ⟨?_, hr.held, hr.stale, ?_⟩, hp, ?_, fun y hy => ?_, hzero, hsizeb.trans htaken,
      fun x h1 h2 => ?_⟩
    · rw [hsizeb]
      exact hz.of_gInUse _
    · rw [hsizeb, hsame, hr.used]
      exact cadd_eq hi₁.used_lt
    · rw [hsizeb]
      exact hfit
    · exact (hzword y ((hi₁.live y).1 (List.mem_cons_of_mem _ hy)).1).trans (hkeep y hy)
    · rw [hsizeb] at h2
      rw [hp, (zeroPayload_spec (need / 8) 0 h₁.mem (by omega)).1 x (by omega)]
      exact hrest x h1 h2
  unfold Heap.take
  dsimp only
  have hneed : cadd (need + 16) minBlock = need + 16 + 32 := cadd_eq (by
    unfold minBlock
    omega)
  by_cases hsplit : blkSize (h.removeFree b).mem b ≥ cadd (need + 16) minBlock
  · rw [if_pos hsplit]
    rw [hneed, hS] at hsplit
    have hw := cutWrites (b := b) (m := (h.removeFree b).mem) (Nat.dvd_add hdvd (by decide : 16 ∣ 16))
      (by omega) hsplit hrb.2.2.1 h16 hrb.1
    obtain ⟨blocks, hinv, hsize, hkeep⟩ := hr.takeSplit hb (Nat.dvd_add hdvd (by decide : 16 ∣ 16))
      (by omega) hsplit hw
    rw [hS, off_eq (a := b) (n := need + 16) (by omega)] at *
    exact htaken hinv hsize le_rfl hused hkeep (if_neg (by omega)).symm fun x h1 h2 => by omega
  · rw [if_neg hsplit]
    obtain ⟨hinv, hsize, hkeep⟩ := hr.takeWhole hb
    rw [hneed, hS] at hsplit
    refine htaken hinv hsize hle hused hkeep (if_pos (by omega)).symm fun x h1 h2 => ?_
    exact (wput_of_apart (by omega)).trans (hr.removeFree_rest hb (by omega) h2)

end Ready
end NewM2.M2Heap
