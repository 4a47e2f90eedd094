import NewM2.M2Heap.Inv

/-! # Inserting into and removing from the free list

The links of a free block are in its payload, so neither touches a header. -/

namespace NewM2.M2Heap
namespace HeapInv
variable {h : Heap} {g : Ghost} {m : Mem} {a b v x y : Nat}

/-- Headers and links of different blocks do not overlap. -/
theorem links_apart (hi : HeapInv h g) (ha : g.Block a) (hb : g.Block b) (hne : a ≠ b) :
    a + 32 ≤ b ∨ b + 32 ≤ a := by
  have hra := (hi.range ha).2.2.2
  have hrb := (hi.range hb).2.2.2
  rcases hi.disjoint ha hb hne with h | h
  · exact .inl (by omega)
  · exact .inr (by omega)

theorem off_link (hi : HeapInv h g) (hb : g.Block b) : off b 16 = b + 16 ∧ off b 24 = b + 24 := by
  obtain ⟨-, -, htop, hmin⟩ := hi.range hb
  exact ⟨off_eq (by omega), off_eq (by omega)⟩

theorem block_lt (hi : HeapInv h g) (hb : g.Block b) : b < 2 ^ 64 := by
  have := (hi.range hb).2.2.1
  omega

theorem fNext_setFNext (hi : HeapInv h g) (ha : g.Block a) (hy : g.Block y) (hv : v < 2 ^ 64) :
    fNext (setFNext m a v) y = if y = a then v else fNext m y := by
  unfold fNext setFNext
  rw [(hi.off_link ha).1, (hi.off_link hy).1]
  split
  next hya =>
    subst hya
    exact wget_wput_self hv
  next hya =>
    have := hi.links_apart hy ha hya
    exact wget_wput_of_apart (by omega)

theorem fPrev_setFPrev (hi : HeapInv h g) (ha : g.Block a) (hy : g.Block y) (hv : v < 2 ^ 64) :
    fPrev (setFPrev m a v) y = if y = a then v else fPrev m y := by
  unfold fPrev setFPrev
  rw [(hi.off_link ha).2, (hi.off_link hy).2]
  split
  next hya =>
    subst hya
    exact wget_wput_self hv
  next hya =>
    have := hi.links_apart hy ha hya
    exact wget_wput_of_apart (by omega)

theorem fPrev_setFNext (hi : HeapInv h g) (ha : g.Block a) (hy : g.Block y) :
    fPrev (setFNext m a v) y = fPrev m y := by
  unfold fPrev setFNext
  rw [(hi.off_link ha).1, (hi.off_link hy).2]
  by_cases hya : y = a
  · exact wget_wput_of_apart (by omega)
  · have := hi.links_apart hy ha hya
    exact wget_wput_of_apart (by omega)

theorem fNext_setFPrev (hi : HeapInv h g) (ha : g.Block a) (hy : g.Block y) :
    fNext (setFPrev m a v) y = fNext m y := by
  unfold fNext setFPrev
  rw [(hi.off_link ha).2, (hi.off_link hy).1]
  by_cases hya : y = a
  · exact wget_wput_of_apart (by omega)
  · have := hi.links_apart hy ha hya
    exact wget_wput_of_apart (by omega)

/-! ## Writes to links -/

/-- Only links of blocks that satisfy `P` changed. -/
def LinksOnly (P : Nat → Prop) (m m' : Mem) : Prop :=
  ∀ x, (∀ b, P b → x < b + 16 ∨ b + 32 ≤ x) → m' x = m x

namespace LinksOnly
variable {P Q : Nat → Prop} {m' m'' : Mem}

theorem refl : LinksOnly P m m := fun _ _ => rfl

theorem trans (h₁ : LinksOnly P m m') (h₂ : LinksOnly P m' m'') : LinksOnly P m m'' :=
  fun x hx => (h₂ x hx).trans (h₁ x hx)

theorem setFNext (hi : HeapInv h g) (ha : g.Block a) : LinksOnly g.Block m (setFNext m a v) := by
  intro x hx
  unfold M2Heap.setFNext
  rw [(hi.off_link ha).1]
  have := hx a ha
  exact wput_of_apart (by omega)

theorem setFPrev (hi : HeapInv h g) (ha : g.Block a) : LinksOnly g.Block m (setFPrev m a v) := by
  intro x hx
  unfold M2Heap.setFPrev
  rw [(hi.off_link ha).2]
  have := hx a ha
  exact wput_of_apart (by omega)

theorem offPayload (hi : HeapInv h g) (hm : LinksOnly g.Block h.mem m') : OffPayload g h.mem m' := by
  intro x hx
  refine hm x fun b hb => ?_
  have := hx b hb
  have := (hi.range hb).2.2.2
  omega

/-- The header of a freed block is no link. -/
theorem freed (hi : HeapInv h g) (hm : LinksOnly g.Block h.mem m') (hb : g.FreedAt h.mem b) :
    wget m' b = wget h.mem b := by
  obtain ⟨-, a, ha, -, hab⟩ := hb
  refine wget_congr fun x h1 h2 => hm x fun y hy => ?_
  by_cases hya : y = a
  · subst hya
    omega
  · have := hi.disjoint hy ha hya
    have := hi.links_apart hy ha hya
    have := (hi.range ha).2.2.2
    have := (hi.range hy).2.2.2
    omega

end LinksOnly

/-! ## RemoveFree -/

theorem fNext_lt (m : Mem) (b : Nat) : fNext m b < 2 ^ 64 := wget_lt m _
theorem fPrev_lt (m : Mem) (b : Nat) : fPrev m b < 2 ^ 64 := wget_lt m _

/-- The links and the head after `b` was removed. -/
theorem removeFree_links (hi : HeapInv h g) (hb : b ∈ g.free)
    (hP : fPrev h.mem b ≠ 0 → fPrev h.mem b ∈ g.free ∧ fPrev h.mem b ≠ b)
    (hN : fNext h.mem b ≠ 0 → fNext h.mem b ∈ g.free) :
    LinksOnly g.Block h.mem (h.removeFree b).mem ∧
      (h.removeFree b).gFreeHead = (if fPrev h.mem b ≠ 0 then h.gFreeHead else fNext h.mem b) ∧
      (∀ y, g.Block y → fNext (h.removeFree b).mem y =
        if fPrev h.mem b ≠ 0 ∧ y = fPrev h.mem b then fNext h.mem b else fNext h.mem y) ∧
      ∀ y, g.Block y → fPrev (h.removeFree b).mem y =
        if fNext h.mem b ≠ 0 ∧ y = fNext h.mem b then fPrev h.mem b else fPrev h.mem y := by
  have hbb := hi.mem_free hb
  unfold Heap.removeFree
  by_cases hp : fPrev h.mem b = 0
  · by_cases hn : fNext h.mem b = 0
    · simp [hp, hn, LinksOnly.refl]
    · have hnb := hi.mem_free (hN hn)
      simp only [hp, hn, ne_eq, not_true_eq_false, not_false_eq_true, if_true, if_false, false_and, true_and]
      refine ⟨LinksOnly.setFPrev hi hnb, fun y hy => hi.fNext_setFPrev hnb hy, fun y hy => ?_⟩
      exact hi.fPrev_setFPrev hnb hy (by decide)
  · obtain ⟨hpf, hpb⟩ := hP hp
    have hpblock := hi.mem_free hpf
    have hnext : fNext (setFNext h.mem (fPrev h.mem b) (fNext h.mem b)) b = fNext h.mem b := by
      rw [hi.fNext_setFNext hpblock hbb (fNext_lt _ _), if_neg hpb.symm]
    have hprev : fPrev (setFNext h.mem (fPrev h.mem b) (fNext h.mem b)) b = fPrev h.mem b :=
      hi.fPrev_setFNext hpblock hbb
    by_cases hn : fNext h.mem b = 0
    · rw [hn] at hnext
      simp only [hp, hn, ne_eq, not_true_eq_false, not_false_eq_true, if_true, if_false, false_and,
        true_and, hnext]
      refine ⟨LinksOnly.setFNext hi hpblock, fun y hy => ?_, fun y hy => hi.fPrev_setFNext hpblock hy⟩
      exact hi.fNext_setFNext hpblock hy (by decide)
    · have hnb := hi.mem_free (hN hn)
      simp only [hp, hn, ne_eq, not_false_eq_true, if_true, true_and, hnext, hprev]
      refine ⟨(LinksOnly.setFNext hi hpblock).trans (LinksOnly.setFPrev hi hnb), fun y hy => ?_,
        fun y hy => ?_⟩
      · rw [hi.fNext_setFPrev hnb hy]
        exact hi.fNext_setFNext hpblock hy (fNext_lt _ _)
      · rw [hi.fPrev_setFPrev hnb hy (fPrev_lt _ _), hi.fPrev_setFNext hpblock hy]

theorem removeFree_rest (h : Heap) (b : Nat) :
    (h.removeFree b).gFirstChunk = h.gFirstChunk ∧ (h.removeFree b).gInUse = h.gInUse := by
  unfold Heap.removeFree
  dsimp only
  split_ifs <;> exact ⟨rfl, rfl⟩

theorem removeFree_spec (hi : HeapInv h g) (hb : b ∈ g.free) :
    HeapInv (h.removeFree b)
        { g with free := g.free.erase b, held := fun y => g.held y ∨ y = b } ∧
      LinksOnly g.Block h.mem (h.removeFree b).mem ∧ (h.removeFree b).gInUse = h.gInUse := by
  obtain ⟨l₁, l₂, hfl⟩ := List.append_of_mem hb
  have hlist := hi.list
  have hnodup := hi.nodup
  rw [hfl] at hlist hnodup
  obtain ⟨hnotb, hrest⟩ := List.nodup_cons.1 (List.nodup_middle.1 hnodup)
  rw [List.mem_append, not_or] at hnotb
  have herase : g.free.erase b = l₁ ++ l₂ := by
    rw [hfl, List.erase_append_right _ hnotb.1, List.erase_cons_head]
  have hmem : ∀ y, y ∈ l₁ ++ l₂ ↔ y ∈ g.free ∧ y ≠ b := by
    intro y
    rw [← herase, hi.nodup.mem_erase_iff, and_comm]
  have hblock : ∀ y ∈ l₁ ++ l₂, g.Block y := fun y hy => hi.mem_free ((hmem y).1 hy).1
  obtain ⟨hlinks, hhead, hfn, hfp⟩ := hi.removeFree_links hb
    (fun hne => (hmem _).1 (List.mem_append_left _ (hlist.prev_mem (mt hlist.prev_eq_zero_iff.2 hne))))
    (fun hne => ((hmem _).1 (List.mem_append_right _ (hlist.next_mem hne))).1)
  have hnew := hlist.unlink hnodup (fun y hy => hfn y (hblock y hy)) fun y hy => hfp y (hblock y hy)
  rw [← hhead] at hnew
  obtain ⟨hfirst, hused⟩ := removeFree_rest h b
  have hstate : h.removeFree b = { h with
      mem := (h.removeFree b).mem, gFreeHead := (h.removeFree b).gFreeHead } := by
    rw [← hfirst, ← hused]
  refine ⟨?_, hlinks, hused⟩
  rw [hstate, herase]
  refine hi.payload (hlinks.offPayload hi) hnew hrest (fun y => ?_) (fun y hy => hlinks.freed hi (hi.freed y hy))
    fun y hy hny hnext hfree => ?_
  · rw [hmem, hi.free]
    tauto
  · obtain ⟨c, hc, hyc⟩ := hy
    exact (hi.chunk c hc).apart y hyc (fun hh => hny (.inl hh)) (fun hh => hnext (.inl hh)) hfree

/-! ## InsertFree -/

theorem insertFree_spec (hi : HeapInv h g) (hb : g.Block b) (hheld : g.held b)
    (hfree : blkAlloc h.mem b = false) (hnext : blkAlloc h.mem (b + blkSize h.mem b) = true)
    (hprev : ∀ y, g.Block y → y + blkSize h.mem y = b → blkAlloc h.mem y = true) :
    HeapInv (h.insertFree b) { g with free := b :: g.free, held := fun y => g.held y ∧ y ≠ b } ∧
      LinksOnly g.Block h.mem (h.insertFree b).mem ∧ (h.insertFree b).gInUse = h.gInUse := by
  have hnot : b ∉ g.free := fun hmem => ((hi.free b).1 hmem).2.2 hheld
  have hheadmem : h.gFreeHead ≠ 0 → h.gFreeHead ∈ g.free := by
    intro hne
    have hl := hi.list.head_eq
    revert hl
    cases g.free with
    | nil => exact fun hl => absurd hl hne
    | cons y l => exact fun hl => hl ▸ List.mem_cons_self
  have hheadlt : h.gFreeHead < 2 ^ 64 := by
    by_cases hh : h.gFreeHead = 0
    · rw [hh]
      decide
    · exact hi.block_lt (hi.mem_free (hheadmem hh))
  have hblock : ∀ y ∈ g.free, g.Block y := fun y hy => hi.mem_free hy
  have hlinks : LinksOnly g.Block h.mem (h.insertFree b).mem ∧
      (∀ y, g.Block y → fNext (h.insertFree b).mem y = if y = b then h.gFreeHead else fNext h.mem y) ∧
      ∀ y, g.Block y → fPrev (h.insertFree b).mem y =
        if h.gFreeHead ≠ 0 ∧ y = h.gFreeHead then b else if y = b then 0 else fPrev h.mem y := by
    unfold Heap.insertFree
    have hbase := (LinksOnly.setFNext (m := h.mem) (v := h.gFreeHead) hi hb).trans
      (LinksOnly.setFPrev (v := 0) hi hb)
    by_cases hh : h.gFreeHead = 0
    · simp only [hh, ne_eq, not_true_eq_false, if_false, false_and]
      rw [hh] at hbase hheadlt
      refine ⟨hbase, fun y hy => ?_, fun y hy => ?_⟩
      · rw [hi.fNext_setFPrev hb hy, hi.fNext_setFNext hb hy hheadlt]
      · rw [hi.fPrev_setFPrev hb hy (by decide), hi.fPrev_setFNext hb hy]
    · have hhb := hblock _ (hheadmem hh)
      simp only [hh, ne_eq, not_false_eq_true, if_true, true_and]
      refine ⟨hbase.trans (LinksOnly.setFPrev hi hhb), fun y hy => ?_, fun y hy => ?_⟩
      · rw [hi.fNext_setFPrev hhb hy, hi.fNext_setFPrev hb hy, hi.fNext_setFNext hb hy hheadlt]
      · rw [hi.fPrev_setFPrev hhb hy (hi.block_lt hb), hi.fPrev_setFPrev hb hy (by decide),
          hi.fPrev_setFNext hb hy]
  obtain ⟨hlinks, hfn, hfp⟩ := hlinks
  have hne : ∀ y ∈ g.free, y ≠ b := by
    rintro y hy rfl
    exact hnot hy
  have hnew : DChain (fNext (h.insertFree b).mem) (fPrev (h.insertFree b).mem) 0 b (b :: g.free) := by
    refine hi.list.cons hi.nodup (hi.free_ne_zero hb) ?_ ?_ (fun y hy => ?_) (fun y hy hyh => ?_)
      fun hh => ?_
    · rw [hfn b hb, if_pos rfl]
    · rw [hfp b hb, if_neg, if_pos rfl]
      rintro ⟨hh, heq⟩
      exact hnot (heq ▸ hheadmem hh)
    · rw [hfn y (hblock y hy), if_neg (hne y hy)]
    · rw [hfp y (hblock y hy), if_neg fun hc => hyh hc.2, if_neg (hne y hy)]
    · rw [hfp _ (hblock _ (hheadmem hh)), if_pos ⟨hh, rfl⟩]
  have hstate : h.insertFree b = { h with mem := (h.insertFree b).mem, gFreeHead := b } := rfl
  refine ⟨?_, hlinks, rfl⟩
  rw [hstate]
  refine hi.payload (hlinks.offPayload hi) hnew (List.nodup_cons.2 ⟨hnot, hi.nodup⟩) (fun y => ?_)
    (fun y hy => hlinks.freed hi (hi.freed y hy)) fun y hy hny hnexty hf => ?_
  · rw [List.mem_cons, hi.free]
    by_cases hyb : y = b
    · subst hyb
      simp [hb, hfree]
    · simp [hyb]
  · by_cases hyb : y = b
    · subst hyb
      exact hnext
    · by_cases hynb : y + blkSize h.mem y = b
      · rw [hprev y hy hynb] at hf
        cases hf
      · obtain ⟨c, hc, hyc⟩ := hy
        exact (hi.chunk c hc).apart y hyc (fun hh => hny ⟨hh, hyb⟩) (fun hh => hnexty ⟨hh, hynb⟩) hf

end HeapInv
end NewM2.M2Heap
