import NewM2.Gc.Inv

/-! # Sweeping one cluster

The walk of `cluster_sweep` meets every block of the cluster. It keeps the marked blocks, with their
contents and without their mark, and turns the rest into a free list of merged blocks
(`clusterSweep_spec`). `SweepInv` is what holds when the walk is at `offset`: behind it the new free
list is complete, from it on nothing has changed. Only the free block `prevFree` may end at `offset`,
which is why no two blocks of the list touch. -/

namespace NewM2.Gc

/-- The block `b` lost its mark and nothing else. -/
def KeptBlock (m₀ m : Mem) (b : Nat) : Prop :=
  tagOf m b = clearMark (tagOf m₀ b) ∧ ∀ x, b + 8 ≤ x → x < b + blockSize m₀ b → m x = m₀ x

/-- The finalizer calls that the sweep owes for a block: one if the block is dead and its descriptor is
registered, fits the block and has a finalizer. -/
def dueOf (descs : Nat → TypeDesc) (reg : Registry) (m : Mem) (block : Nat) : List (Nat × Nat) :=
  let td := clearMark (tagOf m block)
  if ¬ isFree (tagOf m block) ∧ ¬ isMarked (tagOf m block) ∧ (reg td).isSome ∧ 0 < (descs td).size ∧
      (descs td).size.toNat ≤ blockSize m block - headerSize then
    (descs td).finalizer.toList.map fun fin => (fin, block + headerSize)
  else []

theorem dueOf_congr {descs : Nat → TypeDesc} {reg reg' : Registry} {m m' : Mem} {block : Nat}
    (hreg : ∀ a, (reg' a).isSome = (reg a).isSome) (htag : tagOf m' block = tagOf m block)
    (hsize : blockSize m' block = blockSize m block) :
    dueOf descs reg' m' block = dueOf descs reg m block := by
  unfold dueOf
  rw [htag, hsize]
  simp only [hreg]

/-- What a sweep keeps account of. -/
@[ext]
structure Books where
  reg : Registry
  pending : List (Nat × Nat)
  blocksFreed : Nat
  bytesFreed : Nat

def SweepState.books (s : SweepState) : Books := ⟨s.reg, s.pending, s.stats.blocksFreed, s.stats.bytesFreed⟩

/-- Neither free nor marked. -/
def Dead (m : Mem) (block : Nat) : Prop := ¬ isFree (tagOf m block) ∧ ¬ isMarked (tagOf m block)

instance (m : Mem) : DecidablePred (Dead m) := fun _ => inferInstanceAs (Decidable (_ ∧ _))

/-- The walk comes to a block. -/
def Books.visit (descs : Nat → TypeDesc) (m : Mem) (b : Books) (block : Nat) : Books :=
  if Dead m block then
    { reg := b.reg.dec (clearMark (tagOf m block))
      pending := b.pending ++ dueOf descs b.reg m block
      blocksFreed := b.blocksFreed + 1
      bytesFreed := b.bytesFreed + blockSize m block }
  else b

/-- Retiring a block keeps every descriptor in the registry. -/
theorem Registry.isSome_dec (reg : Registry) (td a : Nat) : (reg.dec td a).isSome = (reg a).isSome := by
  unfold Registry.dec
  split
  · next h => simp [h]
  · rfl

section release
variable {descs : Nat → TypeDesc} {s : SweepState} {block size : Nat}

/-- A dead block's finalizer is queued. -/
theorem SweepState.retire_pending (hf : ¬ isFree (tagOf s.mem block)) (hm : ¬ isMarked (tagOf s.mem block))
    (hsize : size = blockSize s.mem block) :
    (s.retire descs block size).pending = s.pending ++ dueOf descs s.reg s.mem block := by
  unfold SweepState.retire dueOf
  dsimp only
  rw [Registry.isSome_dec, hsize]
  by_cases hdue : (s.reg (clearMark (tagOf s.mem block))).isSome ∧
      0 < (descs (clearMark (tagOf s.mem block))).size ∧
      (descs (clearMark (tagOf s.mem block))).size.toNat ≤ blockSize s.mem block - headerSize
  · rw [if_pos hdue, if_pos ⟨hf, hm, hdue⟩]
    cases (descs (clearMark (tagOf s.mem block))).finalizer with
    | none => exact (List.append_nil _).symm
    | some fin => rfl
  · rw [if_neg hdue, if_neg fun h => hdue h.2.2, List.append_nil]

theorem SweepState.release_books : (s.release block size).books = s.books := by
  unfold SweepState.release
  split <;> rfl

theorem SweepState.retire_books (hdead : Dead s.mem block) (hsize : size = blockSize s.mem block) :
    (s.retire descs block size).books = s.books.visit descs s.mem block := by
  rw [Books.visit, if_pos hdead, ← hsize]
  ext1
  · rfl
  · exact retire_pending hdead.1 hdead.2 hsize
  · rfl
  · rfl

end release

/-! ## The account of a list of blocks -/

section books
variable {descs : Nat → TypeDesc} {m m' : Mem} {b : Books} {bs : List Nat}

theorem Books.visit_congr {block : Nat} (htag : tagOf m' block = tagOf m block)
    (hsize : blockSize m' block = blockSize m block) : b.visit descs m' block = b.visit descs m block := by
  have hiff : Dead m' block ↔ Dead m block := by
    unfold Dead
    rw [htag]
  have hdue : dueOf descs b.reg m' block = dueOf descs b.reg m block := dueOf_congr (fun _ => rfl) htag hsize
  by_cases hdead : Dead m block
  · rw [visit, visit, if_pos hdead, if_pos (hiff.2 hdead), hdue, hsize, htag]
  · rw [visit, visit, if_neg hdead, if_neg (mt hiff.1 hdead)]

theorem Books.foldl_visit_congr (h : ∀ block ∈ bs, tagOf m' block = tagOf m block ∧
    blockSize m' block = blockSize m block) : bs.foldl (Books.visit descs m') b = bs.foldl (Books.visit descs m) b :=
  List.foldl_ext _ _ _ fun _ block hb => visit_congr (h block hb).1 (h block hb).2

/-- The dead blocks are taken from the counts of their types, their finalizers are queued, and they are summed up. -/
theorem Books.foldl_visit (b : Books) : bs.foldl (Books.visit descs m) b =
    { reg := fun a => (b.reg a).map fun e =>
        { e with blockCount := e.blockCount - bs.countP fun x => Dead m x ∧ clearMark (tagOf m x) = a }
      pending := b.pending ++ bs.flatMap (dueOf descs b.reg m)
      blocksFreed := b.blocksFreed + bs.countP fun x => Dead m x
      bytesFreed := b.bytesFreed + ((bs.filter fun x => Dead m x).map (blockSize m)).sum } := by
  induction bs generalizing b with
  | nil => ext1 <;> simp
  | cons x bs ih =>
    rw [List.foldl_cons, ih]
    by_cases hdead : Dead m x
    · have hvisit : b.visit descs m x = _ := if_pos hdead
      rw [hvisit]
      ext1
      · funext a
        by_cases ha : clearMark (tagOf m x) = a
        · subst ha
          rcases hreg : b.reg (clearMark (tagOf m x)) with - | e
          · simp [Registry.dec, hreg]
          · simp [Registry.dec, hreg, hdead, Nat.sub_sub, Nat.add_comm]
        · simp [Registry.dec, ha, Ne.symm ha]
      · have hdue : bs.flatMap (dueOf descs (b.reg.dec (clearMark (tagOf m x))) m) = bs.flatMap (dueOf descs b.reg m) :=
          List.flatMap_congr fun y _ => dueOf_congr (Registry.isSome_dec b.reg _) rfl rfl
        simp only [hdue, List.flatMap_cons, List.append_assoc]
      · simp [hdead, Nat.add_assoc, Nat.add_comm]
      · simp [hdead, Nat.add_assoc]
    · have hdue : dueOf descs b.reg m x = [] := if_neg fun h => hdead ⟨h.1, h.2.1⟩
      rw [Books.visit, if_neg hdead]
      ext1 <;> simp [hdead, hdue]

end books

structure SweepInv (m₀ : Mem) (c₀ : Cluster) (bs₀ : List Nat) (offset : Nat) (s : SweepState)
    (bs fl : List Nat) : Prop where
  base_eq : s.cluster.base = c₀.base
  csize_eq : s.cluster.size = c₀.size
  bump_eq : s.cluster.bump = c₀.bump
  min₀ : ∀ b ∈ bs₀, minBlock ≤ blockSize m₀ b
  inv : ClusterListed s.mem s.cluster (c₀.base + offset ≤ ·) bs fl
  here : offset = c₀.bump ∨ c₀.base + offset ∈ bs
  prev : s.prevFree = 0 ∨ s.prevFree ∈ bs ∧
    s.prevFree + blockSize s.mem s.prevFree = c₀.base + offset ∧ isFree (tagOf s.mem s.prevFree)
  ahead : ∀ x, c₀.base + offset ≤ x → s.mem x = m₀ x
  below : ∀ x, x < c₀.base → s.mem x = m₀ x
  todo : ∀ b, c₀.base + offset ≤ b → (b ∈ bs ↔ b ∈ bs₀)
  kept : ∀ b ∈ bs₀, b < c₀.base + offset → ¬ isFree (tagOf m₀ b) → isMarked (tagOf m₀ b) →
    b ∈ bs ∧ KeptBlock m₀ s.mem b
  only : ∀ b ∈ bs, b < c₀.base + offset → ¬ isFree (tagOf s.mem b) →
    b ∈ bs₀ ∧ ¬ isFree (tagOf m₀ b) ∧ isMarked (tagOf m₀ b)
  dead : ∀ b ∈ bs₀, b < c₀.base + offset → isFree (tagOf m₀ b) ∨ ¬ isMarked (tagOf m₀ b) →
    ∃ f ∈ fl, f ≤ b ∧ b + blockSize m₀ b ≤ f + blockSize s.mem f
  last : ∀ f ∈ fl, f + blockSize s.mem f = c₀.base + offset → f = s.prevFree
  spaced : ∀ f ∈ fl, f + blockSize s.mem f ∉ fl

namespace SweepInv
variable {m₀ : Mem} {c₀ : Cluster} {bs₀ bs fl : List Nat} {offset block : Nat} {s : SweepState}
  {descs : Nat → TypeDesc}

/-- The block at the walk's position. -/
structure At (m₀ : Mem) (c₀ : Cluster) (bs₀ : List Nat) (offset block size : Nat) (s : SweepState)
    (bs fl : List Nat) : Prop extends SweepInv m₀ c₀ bs₀ offset s bs fl where
  block_eq : block = c₀.base + offset
  size_eq : size = blockSize s.mem block
  mem : block ∈ bs

section step
variable {size b : Nat}

theorem At.mem₀ (h : At m₀ c₀ bs₀ offset block size s bs fl) : block ∈ bs₀ :=
  (h.todo block h.block_eq.ge).1 h.mem

theorem At.tag_eq (h : At m₀ c₀ bs₀ offset block size s bs fl) : tagOf s.mem block = tagOf m₀ block :=
  rd_congr fun x h1 _ => h.ahead x (h.block_eq ▸ h1)

theorem At.size_eq₀ (h : At m₀ c₀ bs₀ offset block size s bs fl) : blockSize m₀ block = size := by
  rw [h.size_eq]
  refine (rd_congr fun x h1 _ => h.ahead x ?_).symm
  have := h.block_eq
  omega

/-- The position, the size and the end of the walk. -/
theorem At.range (h : At m₀ c₀ bs₀ offset block size s bs fl) :
    minBlock ≤ size ∧ offset + size ≤ c₀.bump := by
  have hr := h.inv.range h.mem
  rw [← h.size_eq, h.base_eq, h.bump_eq] at hr
  have := h.block_eq
  omega

/-- A block is before the position, at it, or behind the current block. -/
theorem At.cases (h : At m₀ c₀ bs₀ offset block size s bs fl) (hb : b ∈ bs) :
    b + blockSize s.mem b ≤ block ∨ b = block ∨ block + size ≤ b := by
  by_cases hne : b = block
  · exact .inr (.inl hne)
  · have := h.inv.disjoint hb h.mem hne
    rw [← h.size_eq] at this
    tauto

theorem At.lt_iff (h : At m₀ c₀ bs₀ offset block size s bs fl) (hb : b ∈ bs) (hne : b ≠ block) :
    block + size ≤ b ↔ block ≤ b := by
  have := (h.inv.range hb).2.2
  have := h.range
  unfold minBlock at *
  rcases h.cases hb with h' | h' | h' <;> omega

theorem At.here_next (h : At m₀ c₀ bs₀ offset block size s bs fl) :
    offset + size = c₀.bump ∨ c₀.base + (offset + size) ∈ bs := by
  have hn := h.inv.tiled.next h.mem
  rw [← h.size_eq, h.base_eq, h.bump_eq, h.block_eq, Nat.add_assoc] at hn
  exact hn.imp_left Nat.add_left_cancel

theorem At.todo_next (h : At m₀ c₀ bs₀ offset block size s bs fl) (hb : c₀.base + (offset + size) ≤ b) :
    b ∈ bs ↔ b ∈ bs₀ := h.todo b (by omega)

/-- The free blocks lie behind the position. -/
theorem At.free_le (h : At m₀ c₀ bs₀ offset block size s bs fl) (hf : b ∈ fl) :
    b + blockSize s.mem b ≤ block := by
  obtain ⟨hb, -, hheld⟩ := (h.inv.free b).1 hf
  have := h.block_eq
  rcases h.cases hb with h' | h' | h' <;> omega

theorem At.not_free (h : At m₀ c₀ bs₀ offset block size s bs fl) : block ∉ fl := by
  intro hf
  have := (h.inv.free block).1 hf
  have := h.block_eq
  omega

/-- A block that was kept before stays as it is under a change that misses it. -/
theorem At.kept_of_frame (h : At m₀ c₀ bs₀ offset block size s bs fl) {m' : Mem}
    (hm : ∀ b ∈ bs, b < block → ¬ isFree (tagOf s.mem b) → ∀ x, b ≤ x → x < b + blockSize s.mem b →
      m' x = s.mem x)
    (hb : b ∈ bs₀) (hlt : b < block) (hf : ¬ isFree (tagOf m₀ b)) (hmark : isMarked (tagOf m₀ b)) :
    b ∈ bs ∧ KeptBlock m₀ m' b := by
  obtain ⟨hmem, htag, hbytes⟩ := h.kept b hb (h.block_eq ▸ hlt) hf hmark
  have hf' : ¬ isFree (tagOf s.mem b) := by rwa [htag, isFree_congr (clearMark_clearMark _)]
  have hmin₀ := h.min₀ b hb
  unfold minBlock at hmin₀
  have hsize : blockSize s.mem b = blockSize m₀ b :=
    rd_congr fun x h1 h2 => hbytes x h1 (by omega)
  have hsame := hm b hmem hlt hf'
  rw [hsize] at hsame
  refine ⟨hmem, ?_, fun x h1 h2 => (hsame x (by omega) h2).trans (hbytes x h1 h2)⟩
  rw [← htag]
  exact rd_congr fun x h1 h2 => hsame x h1 (by omega)

/-- Keeping a marked block. -/
theorem At.keep (h : At m₀ c₀ bs₀ offset block size s bs fl) (hf : ¬ isFree (tagOf s.mem block))
    (hmark : isMarked (tagOf s.mem block)) :
    SweepInv m₀ c₀ bs₀ (offset + size) (s.keep block size) bs fl := by
  have hbase := h.base_eq
  have hblock := h.block_eq
  obtain ⟨hmin, hend⟩ := h.range
  unfold minBlock at hmin
  have htag : tagOf (wr s.mem block (clearMark (tagOf s.mem block))) block =
      clearMark (tagOf s.mem block) :=
    tagOf_wr_self (lt_of_le_of_lt (clearMark_le _) (rd_lt _ _))
  have hother : ∀ b ∈ bs, b ≠ block →
      tagOf (wr s.mem block (clearMark (tagOf s.mem block))) b = tagOf s.mem b ∧
      blockSize (wr s.mem block (clearMark (tagOf s.mem block))) b = blockSize s.mem b ∧
      nextLink (wr s.mem block (clearMark (tagOf s.mem block))) b = nextLink s.mem b := by
    intro b hb hne
    have := h.inv.apart hb h.mem hne
    unfold Apart minBlock at this
    exact header_wr (by omega)
  have hfree : ∀ b ∈ bs, isFree (tagOf (wr s.mem block (clearMark (tagOf s.mem block))) b) =
      isFree (tagOf s.mem b) := by
    intro b hb
    by_cases hne : b = block
    · subst hne
      rw [htag, isFree_congr (clearMark_clearMark _)]
    · rw [(hother b hb hne).1]
  have hlisted : ∀ f ∈ fl, f ∈ bs ∧ f ≠ block := fun f hf =>
    ⟨h.inv.mem_of_free hf, fun heq => h.not_free (heq ▸ hf)⟩
  have hsizes : ∀ f ∈ fl, blockSize (s.keep block size).mem f = blockSize s.mem f := fun f hf =>
    (hother f (hlisted f hf).1 (hlisted f hf).2).2.1
  have hinv : ClusterListed (wr s.mem block (clearMark (tagOf s.mem block))) s.cluster
      (c₀.base + offset ≤ ·) bs fl := by
    refine h.inv.congr (fun b hb => ?_) (fun b hb _ => hfree b hb) fun b hb =>
      (hother b (hlisted b hb).1 (hlisted b hb).2).2.2
    by_cases hne : b = block
    · subst hne
      exact rd_wr_of_apart (by omega)
    · exact (hother b hb hne).2.1
  exact {
    base_eq := hbase
    csize_eq := h.csize_eq
    bump_eq := h.bump_eq
    min₀ := h.min₀
    inv := hinv.of_held fun b hb hfb => by
      have hne : b ≠ block := by
        rintro rfl
        rw [hfree b hb] at hfb
        exact hf hfb
      have := h.lt_iff hb hne
      show c₀.base + (offset + size) ≤ b ↔ c₀.base + offset ≤ b
      rw [← hblock, ← this, hblock, Nat.add_assoc]
    here := h.here_next
    prev := .inl rfl
    ahead := fun x hx => (wr_of_apart (by omega)).trans (h.ahead x (by omega))
    below := fun x hx => (wr_of_apart (by omega)).trans (h.below x hx)
    todo := fun b => h.todo_next
    kept := fun b hb hlt hfb hmb => by
      by_cases hlt' : b < block
      · refine h.kept_of_frame (fun b hb hlt _ x h1 h2 => wr_of_apart ?_) hb hlt' hfb hmb
        rcases h.cases hb with h' | h' | h' <;> omega
      · have hb' : b ∈ bs := (h.todo b (by omega)).2 hb
        obtain rfl : b = block := by
          rcases h.cases hb' with h' | h' | h' <;> omega
        refine ⟨hb', h.tag_eq ▸ htag, fun x h1 h2 => ?_⟩
        exact (wr_of_apart (.inr h1)).trans (h.ahead x (by omega))
    only := fun b hb hlt hfb => by
      by_cases hne : b = block
      · subst hne
        rw [h.tag_eq] at hf hmark
        exact ⟨h.mem₀, hf, hmark⟩
      · change ¬ isFree (tagOf (wr s.mem block (clearMark (tagOf s.mem block))) b) at hfb
        rw [hfree b hb] at hfb
        refine h.only b hb ?_ hfb
        have := h.lt_iff hb hne
        omega
    dead := fun b hb hlt hdead => by
      by_cases hlt' : b < block
      · obtain ⟨f, hmem, hle, hend⟩ := h.dead b hb (by omega) hdead
        exact ⟨f, hmem, hle, hsizes f hmem ▸ hend⟩
      · have hb' : b ∈ bs := (h.todo b (by omega)).2 hb
        obtain rfl : b = block := by
          rcases h.cases hb' with h' | h' | h' <;> omega
        rw [h.tag_eq] at hf hmark
        exact absurd hdead (by tauto)
    last := fun f hmem heq => by
      rw [hsizes f hmem] at heq
      have := h.free_le hmem
      omega
    spaced := fun f hmem => by
      rw [hsizes f hmem]
      exact h.spaced f hmem }

/-- Accounting for a dead block touches neither memory nor cluster. -/
theorem At.retire (h : At m₀ c₀ bs₀ offset block size s bs fl) :
    At m₀ c₀ bs₀ offset block size (s.retire descs block size) bs fl :=
  { base_eq := h.base_eq, csize_eq := h.csize_eq, bump_eq := h.bump_eq, min₀ := h.min₀, inv := h.inv
    here := h.here, prev := h.prev, ahead := h.ahead, below := h.below, todo := h.todo
    kept := h.kept, only := h.only, dead := h.dead, last := h.last, spaced := h.spaced, block_eq := h.block_eq, size_eq := h.size_eq, mem := h.mem }

/-- A dead or free block behind an allocated one goes on the free list. -/
theorem At.push (h : At m₀ c₀ bs₀ offset block size s bs fl) (hprev : s.prevFree = 0)
    (hdead : isFree (tagOf s.mem block) ∨ ¬ isMarked (tagOf s.mem block)) :
    ∃ fl', SweepInv m₀ c₀ bs₀ (offset + size) (s.release block size) bs fl' := by
  have hbase := h.base_eq
  have hblock := h.block_eq
  have hpos := h.inv.base_pos
  obtain ⟨hmin, hend⟩ := h.range
  have hlt : size < 2 ^ 64 := h.size_eq ▸ rd_lt _ _
  have hlink := h.inv.head_lt
  unfold minBlock at hmin
  unfold SweepState.release
  rw [if_neg (by simpa using hprev)]
  set m' := wr (wr (wr s.mem block 0) (block + 8) size) (block + headerSize) s.cluster.freeList with hm'
  have hframe : ∀ x, x < block ∨ block + size ≤ x → m' x = s.mem x := by
    intro x hx
    rw [hm', wr_of_apart (by unfold headerSize; omega), wr_of_apart (by omega), wr_of_apart (by omega)]
  have htag : tagOf m' block = 0 := by
    show rd m' block = 0
    rw [hm', rd_wr_of_apart (by unfold headerSize; omega), rd_wr_of_apart (by omega),
      rd_wr_self (by decide)]
  have hsize : blockSize m' block = size := by
    show rd m' (block + 8) = size
    rw [hm', rd_wr_of_apart (by unfold headerSize; omega), rd_wr_self hlt]
  have hother : ∀ b ∈ bs, b ≠ block → tagOf m' b = tagOf s.mem b ∧
      blockSize m' b = blockSize s.mem b ∧ nextLink m' b = nextLink s.mem b := by
    intro b hb hne
    have hbmin := (h.inv.range hb).2.2
    unfold minBlock at hbmin
    refine header_congr fun x h1 h2 => hframe x ?_
    rcases h.cases hb with h' | h' | h' <;> omega
  have hnot : block ∉ fl := h.not_free
  have hsizes : ∀ f ∈ fl, blockSize m' f = blockSize s.mem f := fun f hf =>
    (hother f (h.inv.mem_of_free hf) fun heq => hnot (heq ▸ hf)).2.1
  have hbehind : ∀ f ∈ fl, f + blockSize s.mem f < block := by
    intro f hf
    have hle := h.free_le hf
    have hne : f + blockSize s.mem f ≠ block := by
      intro heq
      have hzero := (h.last f hf (heq.trans hblock)).trans hprev
      have hrange := (h.inv.range (h.inv.mem_of_free hf)).1
      omega
    omega
  refine ⟨block :: fl, ?_⟩
  exact {
    base_eq := hbase
    csize_eq := h.csize_eq
    bump_eq := h.bump_eq
    min₀ := h.min₀
    inv := {
      base_pos := hpos, base_align := h.inv.base_align, bump_le := h.inv.bump_le
      top_le := h.inv.top_le, words := h.inv.words
      tiled := h.inv.tiled.congr fun b hb => by
        by_cases hne : b = block
        · rw [hne, hsize, h.size_eq]
        · exact (hother b hb hne).2.1
      sizes := fun b hb => by
        by_cases hne : b = block
        · rw [hne, hsize, h.size_eq]
          exact h.inv.sizes block h.mem
        · rw [(hother b hb hne).2.1]
          exact h.inv.sizes b hb
      starts := h.inv.starts
      chain := by
        refine ⟨rfl, by omega, ?_⟩
        rw [show nextLink m' block = s.cluster.freeList from nextLink_wr_self hlink]
        refine h.inv.chain.congr fun b hb => ?_
        exact (hother b (h.inv.mem_of_free hb) fun heq => hnot (heq ▸ hb)).2.2
      nodup := List.nodup_cons.2 ⟨hnot, h.inv.nodup⟩
      free := fun b => by
        rw [List.mem_cons, h.inv.free b]
        constructor
        · rintro (rfl | ⟨hb, hfb, hheld⟩)
          · exact ⟨h.mem, by rw [htag]; rfl, by omega⟩
          · have hne : b ≠ block := fun heq => hheld (by omega)
            exact ⟨hb, by rwa [(hother b hb hne).1], by omega⟩
        · rintro ⟨hb, hfb, hheld⟩
          by_cases hne : b = block
          · exact .inl hne
          · rw [(hother b hb hne).1] at hfb
            have := h.lt_iff hb hne
            exact .inr ⟨hb, hfb, by omega⟩ }
    here := h.here_next
    prev := .inr ⟨h.mem, show block + blockSize m' block = c₀.base + (offset + size) by omega,
      show isFree (tagOf m' block) = true by rw [htag]; rfl⟩
    ahead := fun x hx => (hframe x (by omega)).trans (h.ahead x (by omega))
    below := fun x hx => (hframe x (by omega)).trans (h.below x hx)
    todo := fun b => h.todo_next
    kept := fun b hb hlt hfb hmb => by
      by_cases hlt' : b < block
      · refine h.kept_of_frame (fun b hb hlt _ x h1 h2 => hframe x ?_) hb hlt' hfb hmb
        rcases h.cases hb with h' | h' | h' <;> omega
      · have hb' : b ∈ bs := (h.todo b (by omega)).2 hb
        obtain rfl : b = block := by
          rcases h.cases hb' with h' | h' | h' <;> omega
        rw [h.tag_eq] at hdead
        exact absurd hdead (by tauto)
    only := fun b hb hlt hfb => by
      have hne : b ≠ block := by
        rintro rfl
        exact hfb (by rw [htag]; rfl)
      change ¬ isFree (tagOf m' b) at hfb
      rw [(hother b hb hne).1] at hfb
      refine h.only b hb ?_ hfb
      have := h.lt_iff hb hne
      omega
    dead := fun b hb hlt hdead' => by
      by_cases hlt' : b < block
      · obtain ⟨f, hmem, hle, hend⟩ := h.dead b hb (by omega) hdead'
        exact ⟨f, List.mem_cons_of_mem _ hmem, hle, (hsizes f hmem).symm ▸ hend⟩
      · have hb' : b ∈ bs := (h.todo b (by omega)).2 hb
        obtain rfl : b = block := by
          rcases h.cases hb' with h' | h' | h' <;> omega
        refine ⟨b, List.mem_cons_self .., Nat.le_refl _, ?_⟩
        rw [h.size_eq₀]
        exact (congrArg (b + ·) hsize.symm).le
    last := fun f hmem heq => by
      rcases List.mem_cons.1 hmem with rfl | hmem
      · rfl
      · have heq' : f + blockSize m' f = c₀.base + (offset + size) := heq
        have := hbehind f hmem
        rw [hsizes f hmem] at heq'
        omega
    spaced := fun f hmem => by
      show f + blockSize m' f ∉ block :: fl
      rw [List.mem_cons, not_or]
      rcases List.mem_cons.1 hmem with rfl | hmem
      · rw [hsize]
        refine ⟨by omega, fun hmem' => ?_⟩
        have := h.free_le hmem'
        omega
      · rw [hsizes f hmem]
        exact ⟨(hbehind f hmem).ne, h.spaced f hmem⟩ }

/-- A dead or free block behind a free one is merged into it. -/
theorem At.merge (h : At m₀ c₀ bs₀ offset block size s bs fl) (hprev : s.prevFree ≠ 0)
    (hdead : isFree (tagOf s.mem block) ∨ ¬ isMarked (tagOf s.mem block)) :
    ∃ bs', SweepInv m₀ c₀ bs₀ (offset + size) (s.release block size) bs' fl := by
  have hbase := h.base_eq
  have hblock := h.block_eq
  obtain ⟨hmin, hend⟩ := h.range
  obtain ⟨hp, hpend, hpfree⟩ := h.prev.resolve_left hprev
  unfold SweepState.release
  rw [if_pos hprev]
  generalize s.prevFree = p at *
  have hprange := h.inv.range hp
  have hbump := h.inv.bump_le
  have htop := h.inv.top_le
  have hpsize : blockSize s.mem p < 2 ^ 64 := rd_lt _ _
  unfold minBlock at hmin hprange
  set m' := wr s.mem (p + 8) (blockSize s.mem p + size) with hm'
  have hframe : ∀ x, x < p + 8 ∨ p + 16 ≤ x → m' x = s.mem x := fun x hx => wr_of_apart hx
  have hsize : blockSize m' p = blockSize s.mem p + size := by
    refine blockSize_wr_self ?_
    have hbumpeq := h.bump_eq
    omega
  have hpne : p ≠ block := by omega
  have htag : ∀ b ∈ bs, tagOf m' b = tagOf s.mem b := by
    intro b hb
    by_cases hne : b = p
    · subst hne
      exact rd_wr_of_apart (by omega)
    · have := h.inv.apart hb hp hne
      unfold Apart minBlock at this
      exact rd_wr_of_apart (by omega)
  have hother : ∀ b ∈ bs, b ≠ p → blockSize m' b = blockSize s.mem b := by
    intro b hb hne
    have := h.inv.apart hb hp hne
    unfold Apart minBlock at this
    exact rd_wr_of_apart (by omega)
  have hblock' : p + blockSize s.mem p = block := by omega
  obtain ⟨bs', htiled, hmem⟩ := h.inv.tiled.merge hp (hblock' ▸ h.mem)
    (by rw [hsize, hblock', h.size_eq]) hother
  rw [hblock'] at hmem
  have hsub : ∀ b ∈ bs', b ∈ bs ∧ b ≠ block := fun b hb => (hmem b).1 hb
  have hpfl : p ∈ fl := (h.inv.free p).2 ⟨hp, hpfree, by omega⟩
  have hsizes : ∀ f ∈ fl, f ≠ p → blockSize m' f = blockSize s.mem f := fun f hf hne =>
    hother f (h.inv.mem_of_free hf) hne
  have hindex : (block - s.cluster.base) / blockAlign / 64 < s.cluster.blockStarts.length :=
    h.inv.index_lt (by
      have hbumpeq := h.bump_eq
      unfold minBlock
      omega)
  refine ⟨bs', ?_⟩
  exact {
    base_eq := hbase
    csize_eq := h.csize_eq
    bump_eq := h.bump_eq
    min₀ := h.min₀
    inv := {
      base_pos := h.inv.base_pos, base_align := h.inv.base_align, bump_le := hbump, top_le := htop
      words := (Bitmap.length_clear ..).trans h.inv.words
      tiled := htiled
      sizes := fun b hb => by
        obtain ⟨hb, -⟩ := hsub b hb
        by_cases hne : b = p
        · subst hne
          rw [hsize, h.size_eq]
          have h1 := h.inv.sizes b hp
          have h2 := h.inv.sizes block h.mem
          exact ⟨Nat.dvd_add h1.1 h2.1, by omega⟩
        · rw [hother b hb hne]
          exact h.inv.sizes b hb
      starts := fun i => by
        have hi : i = (block - s.cluster.base) / blockAlign ↔
            s.cluster.base + blockAlign * i = block := by
          have h1 := h.inv.aligned.2 block h.mem
          have h2 := h.inv.base_align
          unfold blockAlign at *
          omega
        show (Bitmap.clear s.cluster.blockStarts _).testBit i = true ↔ _
        rw [Bitmap.testBit_clear _ _ hindex, hmem, Bool.and_eq_true, h.inv.starts i,
          Bool.not_eq_true', decide_eq_false_iff_not, hi, and_comm]
        rfl
      chain := h.inv.chain.congr fun b hb => rd_wr_of_apart (by
        have hb' := h.inv.mem_of_free hb
        by_cases hne : b = p
        · subst hne
          unfold headerSize
          omega
        · have := h.inv.apart hb' hp hne
          unfold Apart minBlock headerSize at *
          omega)
      nodup := h.inv.nodup
      free := fun b => by
        rw [h.inv.free b, hmem]
        constructor
        · rintro ⟨hb, hfb, hheld⟩
          exact ⟨⟨hb, by omega⟩, by rwa [htag b hb], by omega⟩
        · rintro ⟨⟨hb, hne⟩, hfb, hheld⟩
          rw [htag b hb] at hfb
          have := h.lt_iff hb hne
          exact ⟨hb, hfb, by omega⟩ }
    here := h.here_next.imp_right fun hb => (hmem _).2 ⟨hb, by omega⟩
    prev := .inr ⟨(hmem p).2 ⟨hp, hpne⟩,
      show p + blockSize m' p = c₀.base + (offset + size) by omega,
      show isFree (tagOf m' p) = true by rw [htag p hp]; exact hpfree⟩
    ahead := fun x hx => (hframe x (by omega)).trans (h.ahead x (by omega))
    below := fun x hx => (hframe x (by omega)).trans (h.below x hx)
    todo := fun b hb => by
      rw [hmem, ← h.todo_next hb]
      exact and_iff_left (by omega)
    kept := fun b hb hlt hfb hmb => by
      by_cases hlt' : b < block
      · obtain ⟨hb', hkept⟩ := h.kept_of_frame (fun b hb hlt hfb x h1 h2 => hframe x (by
          have hne : b ≠ p := by
            rintro rfl
            exact hfb hpfree
          have := h.inv.disjoint hb hp hne
          omega)) hb hlt' hfb hmb
        exact ⟨(hmem b).2 ⟨hb', by omega⟩, hkept⟩
      · have hb' : b ∈ bs := (h.todo b (by omega)).2 hb
        obtain rfl : b = block := by
          rcases h.cases hb' with h' | h' | h' <;> omega
        rw [h.tag_eq] at hdead
        exact absurd hdead (by tauto)
    only := fun b hb hlt hfb => by
      obtain ⟨hb, hne⟩ := hsub b hb
      change ¬ isFree (tagOf m' b) at hfb
      rw [htag b hb] at hfb
      refine h.only b hb ?_ hfb
      have := h.lt_iff hb hne
      omega
    dead := fun b hb hlt hdead' => by
      show ∃ f ∈ fl, f ≤ b ∧ b + blockSize m₀ b ≤ f + blockSize m' f
      by_cases hlt' : b < block
      · obtain ⟨f, hf, hle, hend⟩ := h.dead b hb (by omega) hdead'
        refine ⟨f, hf, hle, ?_⟩
        by_cases hne : f = p
        · subst hne
          omega
        · rwa [hsizes f hf hne]
      · have hb' : b ∈ bs := (h.todo b (by omega)).2 hb
        obtain rfl : b = block := by
          rcases h.cases hb' with h' | h' | h' <;> omega
        refine ⟨p, hpfl, by omega, ?_⟩
        rw [h.size_eq₀]
        omega
    last := fun f hf heq => by
      have heq' : f + blockSize m' f = c₀.base + (offset + size) := heq
      by_contra hne
      rw [hsizes f hf hne] at heq'
      have := h.free_le hf
      omega
    spaced := fun f hf => by
      show f + blockSize m' f ∉ fl
      by_cases hne : f = p
      · subst hne
        intro hf'
        have := h.free_le hf'
        omega
      · rw [hsizes f hf hne]
        exact h.spaced f hf }

end step

/-- The walk is inside the cluster until it reaches the end. -/
theorem offset_le (h : SweepInv m₀ c₀ bs₀ offset s bs fl) : offset ≤ c₀.bump := by
  rcases h.here with h' | h'
  · exact h'.le
  · have := h.inv.range h'
    rw [h.base_eq, h.bump_eq] at this
    omega

/-- One block of the walk. -/
theorem step (descs : Nat → TypeDesc) (h : SweepInv m₀ c₀ bs₀ offset s bs fl)
    (hlt : offset < c₀.bump) (fuel : Nat) :
    ∃ s' bs' fl', SweepInv m₀ c₀ bs₀ (offset + blockSize m₀ (c₀.base + offset)) s' bs' fl' ∧
      sweepFrom descs (fuel + 1) offset s =
        sweepFrom descs fuel (offset + blockSize m₀ (c₀.base + offset)) s' ∧
      s'.books = s.books.visit descs m₀ (c₀.base + offset) := by
  have hmem : c₀.base + offset ∈ bs := h.here.resolve_left hlt.ne
  have hat : At m₀ c₀ bs₀ offset (c₀.base + offset) (blockSize s.mem (c₀.base + offset)) s bs fl :=
    { h with block_eq := rfl, size_eq := rfl, mem := hmem }
  obtain ⟨hmin, hend⟩ := hat.range
  have hsize := hat.size_eq₀
  have hvisit : s.books.visit descs m₀ (c₀.base + offset) = s.books.visit descs s.mem (c₀.base + offset) :=
    Books.visit_congr hat.tag_eq.symm hsize
  rw [hsize, sweepFrom, if_neg (by rw [h.bump_eq]; omega)]
  dsimp only
  rw [h.base_eq, if_neg (by rw [h.bump_eq]; omega), hvisit]
  unfold minBlock at hmin
  by_cases hlive : ¬ isFree (tagOf s.mem (c₀.base + offset)) ∧ isMarked (tagOf s.mem (c₀.base + offset))
  · rw [if_pos hlive]
    refine ⟨_, bs, fl, hat.keep hlive.1 hlive.2, rfl, ?_⟩
    rw [Books.visit, if_neg fun h => h.2 hlive.2]
    rfl
  · rw [if_neg hlive]
    have hdead : isFree (tagOf s.mem (c₀.base + offset)) ∨
        ¬ isMarked (tagOf s.mem (c₀.base + offset)) := by tauto
    have hrelease : ∀ s', At m₀ c₀ bs₀ offset (c₀.base + offset) (blockSize s.mem (c₀.base + offset))
        s' bs fl → s'.mem = s.mem → ∃ bs' fl', SweepInv m₀ c₀ bs₀
          (offset + blockSize s.mem (c₀.base + offset))
          (s'.release (c₀.base + offset) (blockSize s.mem (c₀.base + offset))) bs' fl' := by
      intro s' hat' hmem'
      by_cases hprev : s'.prevFree = 0
      · obtain ⟨fl', h'⟩ := hat'.push hprev (by rwa [hmem'])
        exact ⟨bs, fl', h'⟩
      · obtain ⟨bs', h'⟩ := hat'.merge hprev (by rwa [hmem'])
        exact ⟨bs', fl, h'⟩
    by_cases hf : isFree (tagOf s.mem (c₀.base + offset))
    · rw [if_neg (not_not.2 hf)]
      obtain ⟨bs', fl', h'⟩ := hrelease _ hat rfl
      refine ⟨_, bs', fl', h', rfl, ?_⟩
      rw [SweepState.release_books, Books.visit, if_neg fun h => h.1 hf]
    · rw [if_pos hf]
      obtain ⟨bs', fl', h'⟩ := hrelease (s.retire descs _ _) hat.retire rfl
      refine ⟨_, bs', fl', h', rfl, ?_⟩
      rw [SweepState.release_books, SweepState.retire_books ⟨hf, hdead.resolve_left hf⟩ rfl]

/-- The whole walk over the blocks `rest` from the position on: the fuel suffices, it ends at the end of
the used part, and it has kept account of them. -/
theorem run (descs : Nat → TypeDesc) (fuel : Nat) (h : SweepInv m₀ c₀ bs₀ offset s bs fl)
    (hfuel : c₀.bump ≤ offset + fuel) {rest : List Nat}
    (hrest : Tiled (blockSize m₀) (c₀.base + offset) (c₀.base + c₀.bump) rest) :
    (∃ bs' fl', SweepInv m₀ c₀ bs₀ c₀.bump (sweepFrom descs fuel offset s) bs' fl') ∧
      (sweepFrom descs fuel offset s).books = rest.foldl (Books.visit descs m₀) s.books := by
  induction fuel generalizing offset s bs fl rest with
  | zero =>
    obtain rfl : offset = c₀.bump := Nat.le_antisymm h.offset_le hfuel
    obtain rfl := hrest.unique (show Tiled (blockSize m₀) _ _ [] from rfl)
    exact ⟨⟨bs, fl, h⟩, rfl⟩
  | succ fuel ih =>
    by_cases hlt : offset < c₀.bump
    · obtain _ | ⟨b, rest⟩ := rest
      · rw [Tiled.nil_iff] at hrest
        omega
      obtain ⟨rfl, hpos, hrest⟩ := hrest
      obtain ⟨s', bs', fl', h', heq, hbooks⟩ := h.step descs hlt fuel
      rw [heq]
      rw [Nat.add_assoc] at hrest
      obtain ⟨hend, hbooks'⟩ := ih h' (by omega) hrest
      exact ⟨hend, by rw [hbooks', hbooks, List.foldl_cons]⟩
    · obtain rfl : offset = c₀.bump := Nat.le_antisymm h.offset_le (Nat.le_of_not_lt hlt)
      obtain rfl := hrest.unique (show Tiled (blockSize m₀) _ _ [] from rfl)
      unfold sweepFrom
      rw [if_pos h.bump_eq.le]
      exact ⟨⟨bs, fl, h⟩, rfl⟩

end SweepInv

/-- What a sweep leaves of a cluster: the marked blocks, unmarked and otherwise unchanged, and between
them free blocks that do not touch. -/
structure Swept (m : Mem) (c : Cluster) (bs : List Nat) (m' : Mem) (c' : Cluster)
    (bs' fl' : List Nat) : Prop where
  inv : ClusterListed m' c' (fun _ => False) bs' fl'
  base_eq : c'.base = c.base
  size_eq : c'.size = c.size
  bump_eq : c'.bump = c.bump
  kept : ∀ b ∈ bs, ¬ isFree (tagOf m b) → isMarked (tagOf m b) → b ∈ bs' ∧ KeptBlock m m' b
  only : ∀ b ∈ bs', ¬ isFree (tagOf m' b) → b ∈ bs ∧ ¬ isFree (tagOf m b) ∧ isMarked (tagOf m b)
  dead : ∀ b ∈ bs, isFree (tagOf m b) ∨ ¬ isMarked (tagOf m b) →
    ∃ f ∈ fl', f ≤ b ∧ b + blockSize m b ≤ f + blockSize m' f
  spaced : ∀ f ∈ fl', f + blockSize m' f ∉ fl'
  frame : ∀ x, x < c.base ∨ c.base + c.bump ≤ x → m' x = m x

theorem clusterSweep_spec {m : Mem} {c : Cluster} {bs : List Nat} (h : ClusterTiled m c bs)
    (descs : Nat → TypeDesc) (reg : Registry) (pending : List (Nat × Nat)) :
    (∃ bs' fl', Swept m c bs (clusterSweep descs m c reg pending).mem
      (clusterSweep descs m c reg pending).cluster bs' fl') ∧
    (clusterSweep descs m c reg pending).books = bs.foldl (Books.visit descs m) ⟨reg, pending, 0, 0⟩ := by
  have hstart : SweepInv m c bs 0
      { mem := m, cluster := { c with freeList := 0 }, reg, pending, stats := {}, prevFree := 0 }
      bs [] := {
    base_eq := rfl
    csize_eq := rfl
    bump_eq := rfl
    min₀ := fun b hb => (h.sizes b hb).2
    inv := {
      base_pos := h.base_pos, base_align := h.base_align, bump_le := h.bump_le, top_le := h.top_le
      words := h.words, tiled := h.tiled, sizes := h.sizes, starts := h.starts
      chain := rfl
      nodup := List.nodup_nil
      free := fun b => iff_of_false (by simp) fun hb => hb.2.2 (h.range hb.1).1 }
    here := by
      refine h.tiled.first.imp (fun heq => ?_) fun hb => hb
      omega
    prev := .inl rfl
    ahead := fun _ _ => rfl
    below := fun _ _ => rfl
    todo := fun _ _ => Iff.rfl
    kept := fun b hb hlt => absurd (h.range hb).1 (by omega)
    only := fun b hb hlt => absurd (h.range hb).1 (by omega)
    dead := fun b hb hlt => absurd (h.range hb).1 (by omega)
    last := fun f hf => (List.not_mem_nil hf).elim
    spaced := fun f hf => (List.not_mem_nil hf).elim }
  obtain ⟨⟨bs', fl', hend⟩, hbooks⟩ := hstart.run descs c.bump (by omega) h.tiled
  have hlt : ∀ b ∈ bs, b < c.base + c.bump := fun b hb => by
    have := h.range hb
    unfold minBlock at this
    omega
  have hlt' : ∀ b ∈ bs', b < c.base + c.bump := fun b hb => by
    have := hend.inv.range hb
    rw [hend.base_eq, hend.bump_eq] at this
    unfold minBlock at this
    omega
  refine ⟨⟨bs', fl', ?_, hend.base_eq, hend.csize_eq, hend.bump_eq, fun b hb => hend.kept b hb (hlt b hb),
    fun b hb => hend.only b hb (hlt' b hb), fun b hb => hend.dead b hb (hlt b hb), hend.spaced,
    fun x hx => hx.elim (hend.below x) (hend.ahead x)⟩, hbooks⟩
  exact hend.inv.of_held fun b hb _ => iff_of_false not_false (by have := hlt' b hb; omega)

end NewM2.Gc
