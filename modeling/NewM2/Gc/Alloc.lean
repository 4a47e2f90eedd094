import NewM2.Gc.Inv

/-! # Allocation in one cluster

`tryAlloc` keeps the cluster invariant and returns a block of the wanted size with a zeroed payload
(`tryAlloc_spec`), unless first fit takes a free block that is 16 bytes larger than wanted: that
rest is too small to be split off, but the caller then writes the wanted size into the header. -/

namespace NewM2.Gc

/-- The first fit in `c` leaves a rest of 16 bytes. -/
def Cluster.fitsSliver (m : Mem) (c : Cluster) (total : Nat) : Bool :=
  match findFit m total c.bump .head c.freeList with
  | some (_, block) => blockSize m block == total + blockAlign
  | none => false

namespace ClusterInv
variable {m m' : Mem} {c c' : Cluster} {held : Nat → Prop} {block total a b x : Nat}
  {bs bs' fl l₁ l₂ : List Nat}

/-! ## The free list -/

/-- The cell that links to the node behind `l₁`. -/
def CellAfter (prev cell : Cluster.LinkCell) (l₁ : List Nat) : Prop :=
  (l₁ = [] ∧ cell = prev) ∨ ∃ l₀ p, l₁ = l₀ ++ [p] ∧ cell = .at (p + headerSize)

theorem findFit_some {fuel : Nat} {prev cell : Cluster.LinkCell} {head : Nat} {l : List Nat}
    (hc : Chain (nextLink m) head l) (hf : Cluster.findFit m total fuel prev head = some (cell, b)) :
    ∃ l₁ l₂, l = l₁ ++ b :: l₂ ∧ CellAfter prev cell l₁ ∧ total ≤ blockSize m b := by
  induction fuel generalizing prev head l with
  | zero => cases hf
  | succ fuel ih =>
    unfold Cluster.findFit at hf
    split at hf
    · cases hf
    · next hne =>
      obtain _ | ⟨y, l⟩ := l
      · exact absurd hc hne
      obtain ⟨rfl, -, hc⟩ := hc
      split at hf
      · next hfit =>
        cases hf
        exact ⟨[], l, rfl, .inl ⟨rfl, rfl⟩, hfit⟩
      · obtain ⟨l₁, l₂, rfl, hcell, hfit⟩ := ih hc hf
        refine ⟨head :: l₁, l₂, rfl, .inr ?_, hfit⟩
        rcases hcell with ⟨rfl, rfl⟩ | ⟨l₀, p, rfl, rfl⟩
        · exact ⟨[], head, rfl, rfl⟩
        · exact ⟨head :: l₀, p, rfl, rfl⟩

theorem storeLink_cluster (m : Mem) (c : Cluster) (cell : Cluster.LinkCell) (v : Nat) :
    (c.storeLink m cell v).2 = { c with freeList := (c.storeLink m cell v).2.freeList } := by
  cases cell <;> rfl

/-- The cell that links to `block` lies in the free block before it. -/
theorem storeLink_frame (h : ClusterInv m c held bs (l₁ ++ l₂)) {cell : Cluster.LinkCell}
    (hcell : CellAfter .head cell l₁) (v : Nat)
    (hx : ∀ p ∈ l₁, x < p + headerSize ∨ p + headerSize + 8 ≤ x) :
    (c.storeLink m cell v).1 x = m x := by
  rcases hcell with ⟨rfl, rfl⟩ | ⟨l₀, p, rfl, rfl⟩
  · rfl
  · exact wr_of_apart (hx p (by simp))

/-- The store of a link leaves tags and sizes alone. -/
theorem storeLink_header (h : ClusterInv m c held bs (l₁ ++ l₂)) {cell : Cluster.LinkCell}
    (hcell : CellAfter .head cell l₁) (v : Nat) (hb : b ∈ bs) :
    tagOf (c.storeLink m cell v).1 b = tagOf m b ∧
      blockSize (c.storeLink m cell v).1 b = blockSize m b := by
  have hcells : ∀ x, b ≤ x → x < b + headerSize → (c.storeLink m cell v).1 x = m x := by
    intro x h1 h2
    refine h.storeLink_frame hcell v fun p hp => ?_
    by_cases hne : b = p
    · subst hne
      exact .inl h2
    · have := h.apart hb (h.mem_of_free (by simp [hp])) hne
      unfold Apart minBlock headerSize at *
      omega
  unfold headerSize at hcells
  exact ⟨rd_congr fun x h1 h2 => hcells x (by omega) (by omega),
    rd_congr fun x h1 h2 => hcells x (by omega) (by omega)⟩

/-- Taking `block` off the free list. -/
theorem unlink (h : ClusterOk m c bs (l₁ ++ block :: l₂)) {cell : Cluster.LinkCell}
    (hcell : CellAfter .head cell l₁) :
    ClusterInv (c.storeLink m cell (nextLink m block)).1 (c.storeLink m cell (nextLink m block)).2
        (· = block) bs (l₁ ++ l₂) := by
  have hnodup := h.nodup
  rw [List.nodup_middle, List.nodup_cons] at hnodup
  have hheader := fun b (hb : b ∈ bs) => h.storeLink_header hcell (nextLink m block) hb
  have hfree : ∀ b, b ∈ l₁ ++ l₂ ↔ b ∈ bs ∧ isFree (tagOf m b) ∧ b ≠ block := by
    intro b
    have hb := h.free b
    simp only [List.mem_append, List.mem_cons] at hb hnodup ⊢
    constructor
    · intro hmem
      have hne : b ≠ block := by
        rintro rfl
        exact hnodup.1 hmem
      obtain ⟨h1, h2, -⟩ := hb.1 (by tauto)
      exact ⟨h1, h2, hne⟩
    · rintro ⟨h1, h2, hne⟩
      have := hb.2 ⟨h1, h2, not_false⟩
      tauto
  have hzero : ∀ x, c.base + c.bump ≤ x → x < c.base + c.size →
      (c.storeLink m cell (nextLink m block)).1 x = 0 := by
    intro x h1 h2
    rw [← h.zero x h1 h2]
    refine h.storeLink_frame hcell _ fun p hp => .inr ?_
    have := h.range (h.mem_of_free (List.mem_append_left _ hp))
    unfold headerSize minBlock at *
    omega
  have hchain : Chain (nextLink (c.storeLink m cell (nextLink m block)).1)
      (c.storeLink m cell (nextLink m block)).2.freeList (l₁ ++ l₂) := by
    rcases hcell with ⟨rfl, rfl⟩ | ⟨l₀, p, rfl, rfl⟩
    · exact h.chain.2.2
    · rw [List.append_assoc]
      have hold : Chain (nextLink m) c.freeList (l₀ ++ p :: block :: l₂) := by simpa using h.chain
      refine Chain.unlink (nextLink_wr_self (rd_lt m _)) (fun y hy => ?_) hold
      have hne : y ≠ p := by
        have hnd := h.nodup
        rintro rfl
        simp only [List.append_assoc, List.cons_append, List.nil_append, List.nodup_append,
          List.nodup_cons, List.mem_append, List.mem_cons] at hnd hy
        rcases hy with hy | hy
        · exact hnd.2.2 y hy y (.inl rfl) rfl
        · exact hnd.2.1.1 (.inr hy)
      have := h.apart (h.mem_of_free (by simp at hy ⊢; tauto)) (h.mem_of_free (b := p) (by simp)) hne
      unfold Apart minBlock at this
      exact (header_wr (by unfold headerSize; omega)).2.2
  rw [storeLink_cluster]
  exact {
    base_pos := h.base_pos, base_align := h.base_align, bump_le := h.bump_le, top_le := h.top_le
    words := h.words
    tiled := h.tiled.congr fun b hb => (hheader b hb).2
    sizes := fun b hb => by
      rw [(hheader b hb).2]
      exact h.sizes b hb
    starts := h.starts
    chain := hchain
    nodup := hnodup.2
    free := fun b => by
      rw [hfree b]
      exact and_congr_right fun hb => by rw [(hheader b hb).1]
    zero := hzero }

/-- Splitting the rest off a held block, by its effect on the memory. -/
theorem split (h : ClusterInv m c (· = block) bs fl) (hblock : block ∈ bs) (halign : blockAlign ∣ total)
    (hmin : minBlock ≤ total) (hfit : total + minBlock ≤ blockSize m block)
    (hframe : ∀ x, x < block + 8 ∨ block + 16 ≤ x → x < block + total ∨ block + total + 24 ≤ x →
      m' x = m x)
    (hsize : blockSize m' block = total) (htag : tagOf m' (block + total) = 0)
    (hrest : blockSize m' (block + total) = blockSize m block - total)
    (hlink : nextLink m' (block + total) = c.freeList) :
    ∃ bs', ClusterInv m'
        ({ c with freeList := block + total }.markBlockStart (block + total - c.base)) (· = block) bs'
        ((block + total) :: fl) ∧ ∀ b, b ∈ bs' ↔ b = block + total ∨ b ∈ bs := by
  have hrange := h.range hblock
  have hbump := h.bump_le
  have hnot : block + total ∉ bs := fun hmem => by
    have := h.tiled.eq_of_mem_tile hblock hmem (by omega) (by unfold minBlock at *; omega)
    unfold minBlock at *
    omega
  have hother : ∀ b ∈ bs, b ≠ block → tagOf m' b = tagOf m b ∧ blockSize m' b = blockSize m b ∧
      nextLink m' b = nextLink m b := by
    intro b hb hne
    have hdis := h.disjoint hb hblock hne
    have hbr := h.range hb
    unfold minBlock at *
    exact header_congr fun x h1 h2 => hframe x (by omega) (by omega)
  have htagb : tagOf m' block = tagOf m block :=
    rd_congr fun x h1 h2 => hframe x (by omega) (by unfold minBlock at hmin; omega)
  have hindex : (block + total - c.base) / blockAlign / 64 < c.blockStarts.length :=
    h.index_lt (by unfold minBlock at *; omega)
  obtain ⟨pre, post, rfl⟩ := List.append_of_mem hblock
  have hnodup := h.tiled.nodup
  rw [List.nodup_middle, List.nodup_cons] at hnodup
  have hne : ∀ b ∈ pre ++ post, b ≠ block := fun b hb heq => hnodup.1 (heq ▸ hb)
  have hmem : ∀ b, b ∈ pre ++ block :: (block + total) :: post ↔
      b = block + total ∨ b ∈ pre ++ block :: post := by
    intro b
    simp only [List.mem_append, List.mem_cons]
    tauto
  refine ⟨pre ++ block :: (block + total) :: post, ?_, hmem⟩
  have htiled : Tiled (blockSize m') c.base (c.base + c.bump)
      (pre ++ block :: (block + total) :: post) := by
    obtain ⟨mid, hpre, rfl, hpos, hpost⟩ := Tiled.append_iff.1 h.tiled
    refine Tiled.append_iff.2 ⟨block, hpre.congr fun b hb => ?_, rfl, ?_, ?_, ?_, ?_⟩
    · exact (hother b (by simp [hb]) (hne b (by simp [hb]))).2.1
    · rw [hsize]
      unfold minBlock at hmin
      omega
    · rw [hsize]
    · rw [hrest]
      unfold minBlock at hfit
      omega
    · rw [hsize, hrest, show block + total + (blockSize m block - total) = block + blockSize m block by
        omega]
      exact hpost.congr fun b hb => (hother b (by simp [hb]) (hne b (by simp [hb]))).2.1
  exact {
    base_pos := h.base_pos, base_align := h.base_align, bump_le := hbump, top_le := h.top_le
    words := (Bitmap.length_set ..).trans h.words
    tiled := htiled
    sizes := fun b hb => by
      rcases (hmem b).1 hb with rfl | hb
      · have := (h.sizes block hblock).1
        rw [hrest]
        exact ⟨Nat.dvd_sub this halign, by omega⟩
      · by_cases hbb : b = block
        · subst hbb
          rw [hsize]
          exact ⟨halign, hmin⟩
        · rw [(hother b hb hbb).2.1]
          exact h.sizes b hb
    starts := fun i => by
      have hi : i = (block + total - c.base) / blockAlign ↔
          c.base + blockAlign * i = block + total := by
        have h1 := (h.aligned).2 block hblock
        have h2 := h.base_align
        unfold blockAlign at *
        omega
      show (Bitmap.set c.blockStarts _).testBit i = true ↔ c.base + blockAlign * i ∈ _
      rw [Bitmap.testBit_set _ _ hindex, hmem, ← h.starts i, Bool.or_eq_true, decide_eq_true_eq, hi]
    chain := by
      have hpos := h.base_pos
      refine ⟨rfl, by omega, ?_⟩
      rw [hlink]
      refine h.chain.congr fun b hb => ?_
      have hb' := (h.free b).1 hb
      exact (hother b hb'.1 hb'.2.2).2.2
    nodup := List.nodup_cons.2 ⟨fun hmem => hnot (h.mem_of_free hmem), h.nodup⟩
    free := fun b => by
      rw [List.mem_cons, hmem, h.free b]
      constructor
      · rintro (rfl | ⟨hb, hf, hbb⟩)
        · exact ⟨.inl rfl, by rw [htag]; rfl, by unfold minBlock at hmin; omega⟩
        · exact ⟨.inr hb, by rw [(hother b hb hbb).1]; exact hf, hbb⟩
      · rintro ⟨rfl | hb, hf, hbb⟩
        · exact .inl rfl
        · rw [(hother b hb hbb).1] at hf
          exact .inr ⟨hb, hf, hbb⟩
    zero := fun x h1 h2 => by
      rw [← h.zero x h1 h2]
      have h1' : c.base + c.bump ≤ x := h1
      unfold minBlock at *
      exact hframe x (by omega) (by omega) }

/-- Zeroing the payload of the held block. -/
theorem fillHeld (h : ClusterInv m c (· = block) bs fl) (hblock : block ∈ bs) :
    ClusterInv (Mem.fill m (block + headerSize) (blockSize m block - headerSize)) c (· = block) bs fl := by
  have hrange := h.range hblock
  have hother : ∀ b ∈ bs, b ≠ block → ∀ x, b ≤ x → x < b + 24 →
      Mem.fill m (block + headerSize) (blockSize m block - headerSize) x = m x := by
    intro b hb hne x h1 h2
    have hdis := h.disjoint hb hblock hne
    have hbr := h.range hb
    refine Mem.fill_of_disjoint m ?_
    unfold headerSize minBlock at *
    omega
  refine h.congr (fun b hb => ?_) (fun b hb hne => ?_) (fun b hb => ?_) fun x h1 h2 => ?_
  · by_cases hne : b = block
    · subst hne
      exact rd_fill_of_apart (by unfold headerSize; omega)
    · exact (header_congr (hother b hb hne)).2.1
  · rw [(header_congr (hother b hb hne)).1]
  · have hb' := (h.free b).1 hb
    exact (header_congr (hother b hb'.1 hb'.2.2)).2.2
  · refine Mem.fill_of_disjoint m (.inr ?_)
    unfold headerSize minBlock at *
    omega

/-- What an allocation does to its cluster: `block` is held, has the wanted size and a zeroed payload,
was not allocated before, and nothing outside the free blocks and the free end has changed. -/
structure Allocated (m : Mem) (c : Cluster) (bs : List Nat) (total : Nat) (m' : Mem) (c' : Cluster)
    (block : Nat) (bs' fl' : List Nat) : Prop where
  inv : ClusterInv m' c' (· = block) bs' fl'
  base : c'.base = c.base
  size : c'.size = c.size
  bump : c.bump ≤ c'.bump
  mem : block ∈ bs'
  blockSize_eq : blockSize m' block = total
  payload : ∀ x, block + headerSize ≤ x → x < block + total → m' x = 0
  keeps : ∀ b ∈ bs, b ∈ bs'
  only : ∀ b ∈ bs', b ≠ block → ¬ isFree (tagOf m' b) → b ∈ bs ∧ ¬ isFree (tagOf m b)
  was_free : block ∈ bs → isFree (tagOf m block)
  frame : ∀ x, (∀ b ∈ bs, isFree (tagOf m b) → x < b ∨ b + blockSize m b ≤ x) →
    x < c.base + c.bump ∨ c.base + c.size ≤ x → m' x = m x

/-- Taking a block of the free list that is not 16 bytes too large. -/
theorem takeFree (h : ClusterOk m c bs (l₁ ++ block :: l₂)) {cell : Cluster.LinkCell}
    (hcell : CellAfter .head cell l₁) (halign : blockAlign ∣ total) (hmin : minBlock ≤ total)
    (hfit : total ≤ blockSize m block) (hsliver : blockSize m block ≠ total + blockAlign) :
    ∃ bs' fl', Allocated m c bs total (c.takeFree m total cell block).1
      (c.takeFree m total cell block).2 block bs' fl' := by
  have hblock : block ∈ bs := h.mem_of_free (by simp)
  have hfree : ∀ p ∈ l₁ ++ block :: l₂, p ∈ bs ∧ isFree (tagOf m p) := fun p hp =>
    ⟨h.mem_of_free hp, ((h.free p).1 hp).2.1⟩
  have hrange := h.range hblock
  have hunlink := h.unlink hcell
  obtain ⟨htag₁, hsize₁⟩ := h.storeLink_header hcell (nextLink m block) hblock
  have hbase := congrArg Cluster.base (storeLink_cluster m c cell (nextLink m block))
  have hsize := congrArg Cluster.size (storeLink_cluster m c cell (nextLink m block))
  have hbump := congrArg Cluster.bump (storeLink_cluster m c cell (nextLink m block))
  -- the store of the link and all stores into `block` lie in free blocks
  have hframe₁ : ∀ x, (∀ b ∈ bs, isFree (tagOf m b) → x < b ∨ b + blockSize m b ≤ x) →
      (c.storeLink m cell (nextLink m block)).1 x = m x := fun x hx =>
    h.storeLink_frame hcell _ fun p hp => by
      have hp' := hfree p (by simp [hp])
      have := hx p hp'.1 hp'.2
      have := h.range hp'.1
      unfold minBlock headerSize at *
      omega
  have hrest : ∀ b ∈ bs, b ≠ block → isFree (tagOf m b) → b ∈ l₁ ++ l₂ := by
    intro b hb hne hf
    have := (h.free b).2 ⟨hb, hf, not_false⟩
    simp only [List.mem_append, List.mem_cons] at this ⊢
    tauto
  have hout : ∀ x, (∀ b ∈ bs, isFree (tagOf m b) → x < b ∨ b + blockSize m b ≤ x) →
      x < block ∨ block + blockSize m block ≤ x := fun x hx =>
    hx block hblock (hfree block (by simp)).2
  unfold Cluster.takeFree
  generalize c.storeLink m cell (nextLink m block) = r at *
  obtain ⟨m₁, c₁⟩ := r
  dsimp only at *
  by_cases hsplit : minBlock ≤ blockSize m block - total
  · simp only [if_pos hsplit]
    set m₂ := wr (wr (wr (wr m₁ (block + total) 0) (block + total + 8) (blockSize m block - total))
      (block + total + headerSize) c₁.freeList) (block + 8) total with hm₂
    have hlt : blockSize m block < 2 ^ 64 := rd_lt m _
    have hframe₂ : ∀ x, x < block + 8 ∨ block + 16 ≤ x →
        x < block + total ∨ block + total + 24 ≤ x → m₂ x = m₁ x := by
      intro x h1 h2
      rw [hm₂, wr_of_apart (by omega), wr_of_apart (by unfold headerSize; omega),
        wr_of_apart (by omega), wr_of_apart (by omega)]
    have hsize₂ : blockSize m₂ block = total := blockSize_wr_self (by omega)
    obtain ⟨bs', hinv, hmem⟩ := hunlink.split hblock halign hmin (by omega) hframe₂ hsize₂
      (by
        have : tagOf m₂ (block + total) = rd (wr m₁ (block + total) 0) (block + total) := by
          unfold minBlock at hmin
          rw [hm₂]
          unfold tagOf
          rw [rd_wr_of_apart (by omega), rd_wr_of_apart (by unfold headerSize; omega),
            rd_wr_of_apart (by omega)]
        rw [this, rd_wr_self (by decide)])
      (by
        unfold minBlock at hmin
        show rd m₂ (block + total + 8) = _
        rw [hm₂, rd_wr_of_apart (by omega), rd_wr_of_apart (by unfold headerSize; omega),
          rd_wr_self (by omega), hsize₁])
      (by
        unfold minBlock at hmin
        rw [hm₂]
        unfold nextLink
        rw [rd_wr_of_apart (by unfold headerSize; omega), rd_wr_self hunlink.head_lt])
    have hblock' : block ∈ bs' := (hmem block).2 (.inr hblock)
    refine ⟨bs', (block + total) :: (l₁ ++ l₂), ?_⟩
    have hfill := hinv.fillHeld hblock'
    rw [hsize₂] at hfill ⊢
    exact {
      inv := hfill
      base := hbase
      size := hsize
      bump := hbump.ge
      mem := hblock'
      blockSize_eq := by
        rw [← hsize₂]
        exact rd_fill_of_apart (by unfold headerSize; omega)
      payload := fun x h1 h2 => Mem.fill_of_mem m₂ h1 (by unfold headerSize minBlock at *; omega)
      keeps := fun b hb => (hmem b).2 (.inr hb)
      only := fun b hb hne hf => by
        rcases (hmem b).1 hb with rfl | hb
        · exact absurd ((hfill.free _).1 (List.mem_cons_self ..)).2.1 hf
        · refine ⟨hb, fun hf' => hf ((hfill.free b).1 (List.mem_cons_of_mem _ ?_)).2.1⟩
          exact hrest b hb hne hf'
      was_free := fun _ => (hfree block (by simp)).2
      frame := fun x hx _ => by
        have hx' := hout x hx
        rw [Mem.fill_of_disjoint m₂ (by unfold headerSize minBlock at *; omega),
          hframe₂ x (by unfold minBlock at *; omega) (by unfold minBlock at *; omega), hframe₁ x hx] }
  · have hexact : blockSize m block = total := by
      have := (h.sizes block hblock).1
      unfold minBlock blockAlign at *
      omega
    simp only [if_neg hsplit]
    refine ⟨bs, l₁ ++ l₂, ?_⟩
    have hfill := hunlink.fillHeld hblock
    exact {
      inv := hfill
      base := hbase
      size := hsize
      bump := hbump.ge
      mem := hblock
      blockSize_eq := by
        rw [← hexact, ← hsize₁]
        exact rd_fill_of_apart (by unfold headerSize; omega)
      payload := fun x h1 h2 => Mem.fill_of_mem m₁ h1 (by
        rw [hsize₁]
        unfold headerSize minBlock at *
        omega)
      keeps := fun _ hb => hb
      only := fun b hb hne hf =>
        ⟨hb, fun hf' => hf ((hfill.free b).1 (hrest b hb hne hf')).2.1⟩
      was_free := fun _ => (hfree block (by simp)).2
      frame := fun x hx _ => by
        have hx' := hout x hx
        rw [hsize₁, Mem.fill_of_disjoint m₁ (by unfold headerSize minBlock at *; omega), hframe₁ x hx] }

/-- Allocating at the end of the used part. -/
theorem takeBump (h : ClusterOk m c bs fl) (halign : blockAlign ∣ total) (hmin : minBlock ≤ total)
    (hroom : c.bump + total ≤ c.size) :
    Allocated m c bs total (c.takeBump m total).1 (c.takeBump m total).2.1 (c.takeBump m total).2.2
      (bs ++ [c.base + c.bump]) fl := by
  unfold Cluster.takeBump
  dsimp only
  have htop := h.top_le
  have hpos := h.base_pos
  have hlt : total < 2 ^ 64 := by omega
  have hnot : c.base + c.bump ∉ bs := h.not_mem (.inr le_rfl)
  have hother : ∀ b ∈ bs, tagOf (wr m (c.base + c.bump + 8) total) b = tagOf m b ∧
      blockSize (wr m (c.base + c.bump + 8) total) b = blockSize m b ∧
      nextLink (wr m (c.base + c.bump + 8) total) b = nextLink m b := by
    intro b hb
    have hbr := h.range hb
    unfold minBlock at hbr
    exact header_wr (by omega)
  have hsize : blockSize (wr m (c.base + c.bump + 8) total) (c.base + c.bump) = total :=
    blockSize_wr_self hlt
  have htag : tagOf (wr m (c.base + c.bump + 8) total) (c.base + c.bump) = 0 := by
    show rd _ _ = 0
    unfold minBlock at hmin
    rw [rd_wr_of_apart (by omega)]
    exact Mem.read_eq_zero fun x h1 h2 => h.zero x (by omega) (by omega)
  have hindex : c.bump / blockAlign / 64 < c.blockStarts.length := h.index_lt (by omega)
  have halignBump := h.aligned.1
  refine {
    inv := {
      base_pos := hpos
      base_align := h.base_align
      bump_le := hroom
      top_le := htop
      words := (Bitmap.length_set ..).trans h.words
      tiled := ?_
      sizes := fun b hb => ?_
      starts := fun i => ?_
      chain := h.chain.congr fun b hb => (hother b (h.mem_of_free hb)).2.2
      nodup := h.nodup
      free := fun b => ?_
      zero := fun x h1 h2 => ?_ }
    base := rfl
    size := rfl
    bump := Nat.le_add_right ..
    mem := by simp
    blockSize_eq := hsize
    payload := fun x h1 h2 => ?_
    keeps := fun b hb => List.mem_append_left _ hb
    only := fun b hb hne hf => ?_
    was_free := fun hmem => (hnot hmem).elim
    frame := fun x _ hx => ?_ }
  · have htiled : Tiled (blockSize (wr m (c.base + c.bump + 8) total)) c.base (c.base + c.bump) bs :=
      h.tiled.congr fun b hb => (hother b hb).2.1
    have hsnoc := htiled.snoc (by rw [hsize]; unfold minBlock at hmin; omega)
    rw [hsize] at hsnoc
    show Tiled _ c.base (c.base + (c.bump + total)) _
    rwa [← Nat.add_assoc]
  · rcases List.mem_append.1 hb with hb | hb
    · rw [(hother b hb).2.1]
      exact h.sizes b hb
    · rw [List.mem_singleton.1 hb, hsize]
      exact ⟨halign, hmin⟩
  · have hi : i = c.bump / blockAlign ↔ c.base + blockAlign * i = c.base + c.bump := by
      unfold blockAlign at *
      omega
    show (Bitmap.set c.blockStarts _).testBit i = true ↔ c.base + blockAlign * i ∈ _
    rw [Bitmap.testBit_set _ _ hindex, List.mem_append, List.mem_singleton, ← h.starts i,
      Bool.or_eq_true, decide_eq_true_eq, hi, or_comm]
  · rw [h.free b, List.mem_append, List.mem_singleton]
    constructor
    · rintro ⟨hb, hf, -⟩
      exact ⟨.inl hb, by rwa [(hother b hb).1], fun heq => hnot (heq ▸ hb)⟩
    · rintro ⟨hb | hb, hf, hne⟩
      · exact ⟨hb, by rwa [(hother b hb).1] at hf, not_false⟩
      · exact absurd hb hne
  · have h1' : c.base + (c.bump + total) ≤ x := h1
    have h2' : x < c.base + c.size := h2
    unfold minBlock at hmin
    rw [wr_of_apart (by omega)]
    exact h.zero x (by omega) h2'
  · unfold headerSize at h1
    rw [wr_of_apart (by omega)]
    exact h.zero x (by omega) (by omega)
  · rcases List.mem_append.1 hb with hb | hb
    · exact ⟨hb, by rwa [(hother b hb).1] at hf⟩
    · exact absurd (List.mem_singleton.1 hb) hne
  · unfold minBlock at hmin
    exact wr_of_apart (by omega)

theorem tryAlloc_spec (h : ClusterOk m c bs fl) (halign : blockAlign ∣ total)
    (hmin : minBlock ≤ total) (hsliver : ¬ c.fitsSliver m total) {path : AllocPath}
    (hres : c.tryAlloc m total = some (m', c', block, path)) :
    ∃ bs' fl', Allocated m c bs total m' c' block bs' fl' := by
  unfold Cluster.tryAlloc at hres
  unfold Cluster.fitsSliver at hsliver
  split at hres
  · next cell b hfit =>
    obtain ⟨l₁, l₂, rfl, hcell, hle⟩ := findFit_some h.chain hfit
    simp only [hfit, beq_iff_eq] at hsliver
    cases hres
    exact h.takeFree hcell halign hmin hle hsliver
  · split at hres
    · next hroom =>
      cases hres
      exact ⟨_, _, h.takeBump halign hmin hroom⟩
    · cases hres

/-- The held block becomes an allocated block with its tag. -/
theorem claim (h : ClusterInv m c (· = block) bs fl) (hblock : block ∈ bs) {tag : Nat}
    (htag : isFree tag = false) (hlt : tag < 2 ^ 64) : ClusterOk (wr m block tag) c bs fl := by
  have hrange := h.range hblock
  have hother : ∀ b ∈ bs, b ≠ block → tagOf (wr m block tag) b = tagOf m b ∧
      blockSize (wr m block tag) b = blockSize m b ∧
      nextLink (wr m block tag) b = nextLink m b := by
    intro b hb hne
    have := h.apart hb hblock hne
    unfold Apart minBlock at this
    exact header_wr (by omega)
  have hframe : ClusterInv (wr m block tag) c (· = block) bs fl := by
    refine h.congr (fun b hb => ?_) (fun b hb hne => by rw [(hother b hb hne).1]) (fun b hb => ?_)
      fun x h1 h2 => wr_of_apart ?_
    · by_cases hne : b = block
      · subst hne
        exact rd_wr_of_apart (by omega)
      · exact (hother b hb hne).2.1
    · have hb' := (h.free b).1 hb
      exact (hother b hb'.1 hb'.2.2).2.2
    · unfold minBlock at hrange
      omega
  refine hframe.of_held fun b hb hf => iff_of_false not_false ?_
  rintro rfl
  rw [tagOf_wr_self hlt, htag] at hf
  cases hf

end ClusterInv
end NewM2.Gc
