import NewM2.M2Heap.Run

/-! # The check of the heap (`Validate`, `library/winrtmod/Heap.mod`)

`Validate` walks all chunks block by block and compares every header with its neighbours and with the free
list. In every state that calls of the module lead to it returns TRUE (`Run.validate_true`). -/

namespace NewM2.M2Heap
namespace Heap
variable (h : Heap)

/-- `OnFreeList`, from `f` on. `none`: still searching after `fuel` blocks. -/
def onFreeListFrom (b : Nat) : Nat → Nat → Option Bool
  | 0, _ => none
  | fuel + 1, f =>
    if f ≠ 0 then if f = b then some true else onFreeListFrom b fuel (fNext h.mem f) else some false

def onFreeList (fuel b : Nat) : Option Bool := h.onFreeListFrom b fuel h.gFreeHead

/-- The blocks of a chunk from `b` on: the bytes walked and the size of the last block, or RETURN FALSE.
Each search of the free list has `k` steps. -/
def validateBlocks (k cbytes sent : Nat) : Nat → Nat → Nat → Nat → Option (Option (Nat × Nat))
  | 0, _, _, _ => none
  | fuel + 1, b, walked, prev =>
    if b = sent then some (some (walked, prev))
    else if blkSize h.mem b < minBlock then some none
    else if blkSize h.mem b &&& 0xF ≠ 0 then some none
    else if blkPrev h.mem b ≠ prev then some none
    else
      match h.onFreeList k b with
      | none => none
      | some listed =>
        if (!blkAlloc h.mem b) ≠ listed then some none
        else if cadd walked (blkSize h.mem b) > cbytes then some none
        else validateBlocks k cbytes sent fuel (off b (blkSize h.mem b)) (cadd walked (blkSize h.mem b))
          (blkSize h.mem b)

/-- The chunks from `chunk` on. -/
def validateChunks (k : Nat) : Nat → Nat → Option Bool
  | 0, _ => none
  | fuel + 1, chunk =>
    if chunk = 0 then some true
    else
      let cbytes := wget h.mem (off chunk 8)
      let sent := off chunk (csub cbytes M2Heap.sentinel)
      match h.validateBlocks k cbytes sent k (off chunk chunkMeta) chunkMeta 0 with
      | none => none
      | some none => some false
      | some (some (walked, prev)) =>
        if blkAlloc h.mem sent = false then some false
        else if blkPrev h.mem sent ≠ prev then some false
        else if cadd walked M2Heap.sentinel ≠ cbytes then some false
        else validateChunks k fuel (wget h.mem chunk)

/-- `Validate`. `none`: a loop does not end within `fuel` turns. -/
def validate (fuel : Nat) : Option Bool := h.validateChunks fuel fuel h.gFirstChunk

variable {h} {g : Ghost} {b c f k fuel p prev : Nat} {l : List Nat}

theorem onFreeListFrom_eq (hl : DChain (fNext h.mem) (fPrev h.mem) p f l) (hk : l.length < fuel) :
    h.onFreeListFrom b fuel f = some (decide (b ∈ l)) := by
  induction l generalizing p f fuel with
  | nil =>
    obtain ⟨fuel, rfl⟩ := Nat.exists_eq_succ_of_ne_zero (Nat.ne_of_gt hk)
    have hf : f = 0 := hl
    simp [onFreeListFrom, hf]
  | cons x l ih =>
    obtain ⟨fuel, rfl⟩ := Nat.exists_eq_succ_of_ne_zero (Nat.ne_of_gt (Nat.zero_lt_of_lt hk))
    obtain ⟨rfl, hne, -, hl⟩ := hl
    rw [onFreeListFrom, if_pos hne]
    split
    · next heq => simp [heq]
    · next hb =>
      rw [ih hl (Nat.lt_of_succ_lt_succ hk)]
      simp [Ne.symm hb]

end Heap

open Heap

variable {h : Heap} {g : Ghost} {b c f k fuel prev : Nat} {l : List Nat}

namespace Ready

theorem onFreeList_eq (hr : Ready h g) (hb : g.Block b) (hk : g.free.length < k) :
    h.onFreeList k b = some (!blkAlloc h.mem b) := by
  rw [onFreeList, onFreeListFrom_eq hr.inv.list hk]
  have hfree : b ∈ g.free ↔ blkAlloc h.mem b = false := by
    rw [hr.inv.free]
    exact ⟨fun hf => hf.2.1, fun hf => ⟨hb, hf, hr.held b⟩⟩
  cases ha : blkAlloc h.mem b <;> simp [hfree, ha]

theorem blkPrev_next (hr : Ready h g) (hc : c ∈ g.chunks) (hb : b ∈ g.blocks c) :
    blkPrev h.mem (b + blkSize h.mem b) = blkSize h.mem b := by
  have hrange := hr.inv.range ⟨c, hc, hb⟩
  rw [blkPrev, off_eq (by omega)]
  refine (hr.inv.chunk c hc).prev b hb ?_
  rw [hr.stale]
  omega

/-- The walk of the blocks `l` at the end of a chunk. -/
theorem validateBlocks_eq (hr : Ready h g) (hc : c ∈ g.chunks) (hk : g.free.length < k)
    (hl : Tiled (blkSize h.mem) b (sentOf h.mem c) l) (hmem : ∀ x ∈ l, x ∈ g.blocks c)
    (hlo : c + 16 ≤ b) (hprev : blkPrev h.mem b = prev) (hfuel : l.length < fuel) :
    h.validateBlocks k (chunkBytes h.mem c) (sentOf h.mem c) fuel b (b - c) prev =
      some (some (chunkBytes h.mem c - 16, blkPrev h.mem (sentOf h.mem c))) := by
  have hchunk := hr.inv.chunk c hc
  have htop := hchunk.top
  have hlarge := hchunk.large
  induction l generalizing b prev fuel with
  | nil =>
    obtain ⟨fuel, rfl⟩ := Nat.exists_eq_succ_of_ne_zero (Nat.ne_of_gt hfuel)
    have hb : b = sentOf h.mem c := hl
    have hwalked : b - c = chunkBytes h.mem c - 16 := by
      rw [hb, sentOf]
      omega
    rw [validateBlocks, if_pos hb, hwalked, ← hb, hprev]
  | cons x l ih =>
    obtain ⟨fuel, rfl⟩ := Nat.exists_eq_succ_of_ne_zero (Nat.ne_of_gt (Nat.zero_lt_of_lt hfuel))
    obtain ⟨rfl, hpos, hrest⟩ := hl
    have hx : x ∈ g.blocks c := hmem x List.mem_cons_self
    obtain ⟨-, hhi, hmin⟩ := hchunk.range hx
    have hle := hrest.le
    have hne : x ≠ sentOf h.mem c := by omega
    have hgran : blkSize h.mem x &&& 0xF = 0 := by
      rw [show (0xF : Nat) = 2 ^ 4 - 1 from rfl, Nat.and_two_pow_sub_one_eq_mod]
      exact Nat.mod_eq_zero_of_dvd dvd_blkSize
    have hwalked : cadd (x - c) (blkSize h.mem x) = x + blkSize h.mem x - c := by
      rw [cadd_eq (by omega)]
      omega
    have hlarge : ¬ blkSize h.mem x < minBlock := Nat.not_lt.2 hmin
    rw [validateBlocks, if_neg hne, if_neg hlarge, if_neg (not_not.2 hgran),
      if_neg (not_not.2 hprev), hr.onFreeList_eq ⟨c, hc, hx⟩ hk]
    simp only [ne_eq, not_true_eq_false, if_false]
    rw [hwalked, off_eq (by omega), if_neg (by omega)]
    exact ih hrest (fun y hy => hmem y (List.mem_cons_of_mem _ hy)) (by omega) (hr.blkPrev_next hc hx)
      (Nat.lt_of_succ_lt_succ hfuel)

/-- The walk of the chunks `l` at the end of the list. -/
theorem validateChunks_eq (hr : Ready h g) (hl : Chain (wget h.mem) f l) (hmem : ∀ c ∈ l, c ∈ g.chunks)
    (hk : g.free.length < k) (hblocks : ∀ c ∈ g.chunks, (g.blocks c).length < k)
    (hfuel : l.length < fuel) : h.validateChunks k fuel f = some true := by
  induction l generalizing f fuel with
  | nil =>
    obtain ⟨fuel, rfl⟩ := Nat.exists_eq_succ_of_ne_zero (Nat.ne_of_gt hfuel)
    exact if_pos hl
  | cons c l ih =>
    obtain ⟨fuel, rfl⟩ := Nat.exists_eq_succ_of_ne_zero (Nat.ne_of_gt (Nat.zero_lt_of_lt hfuel))
    obtain ⟨rfl, hne, hl⟩ := hl
    have hc : f ∈ g.chunks := hmem f List.mem_cons_self
    have hchunk := hr.inv.chunk f hc
    have htop := hchunk.top
    have hlarge := hchunk.large
    have hcbytes : wget h.mem (off f 8) = chunkBytes h.mem f := by
      rw [off_eq (by omega)]
      rfl
    have hsent : off f (csub (chunkBytes h.mem f) M2Heap.sentinel) = sentOf h.mem f := by
      have hle : M2Heap.sentinel ≤ chunkBytes h.mem f := (by decide : M2Heap.sentinel ≤ 64).trans hlarge
      rw [csub_eq hle (wget_lt h.mem (f + 8)), M2Heap.sentinel, off_eq (by omega), sentOf]
      omega
    have hfirst : blkPrev h.mem (f + 16) = 0 := by
      rw [blkPrev, off_eq (by omega)]
      exact hchunk.first
    have hwalk := hr.validateBlocks_eq hc hk hchunk.tiled (fun _ hx => hx) le_rfl hfirst (hblocks f hc)
    rw [Nat.add_sub_cancel_left] at hwalk
    have halloc : blkAlloc h.mem (sentOf h.mem f) = true := by
      rw [blkAlloc_eq, hchunk.sentinel]
      rfl
    have hall : cadd (chunkBytes h.mem f - 16) M2Heap.sentinel = chunkBytes h.mem f := by
      rw [M2Heap.sentinel, cadd_eq (by omega)]
      omega
    rw [validateChunks, if_neg hne]
    simp only [hcbytes, hsent, chunkMeta]
    rw [off_eq (by omega), hwalk]
    simp only [halloc, hall, ne_eq, not_true_eq_false, if_false, Bool.true_eq_false]
    exact ih hl (fun d hd => hmem d (List.mem_cons_of_mem _ hd)) (Nat.lt_of_succ_lt_succ hfuel)

end Ready

/-- The module's own check succeeds in every state of a run. -/
theorem Run.validate_true {m : Mem} {s : State} (hrun : Run m s) :
    ∃ turns, ∀ fuel ≥ turns, s.heap.validate fuel = some true := by
  obtain ⟨g, hs⟩ := hrun.sim
  refine ⟨g.free.length + g.chunks.length + (g.chunks.map fun c => (g.blocks c).length).sum + 1,
    fun fuel hfuel => ?_⟩
  refine hs.ready.validateChunks_eq hs.ready.inv.chunks (fun _ hc => hc) (by omega) (fun c hc => ?_)
    (by omega)
  have hle := List.single_le_sum (fun _ _ => Nat.zero_le _) _
    (List.mem_map_of_mem (f := fun c => (g.blocks c).length) hc)
  omega

/-- With one block live, one freed and one never used. -/
theorem Run.validate_true_leftover : ∃ turns, ∀ fuel ≥ turns, Leftover.heap₄.validate fuel = some true :=
  Run.validate_true Leftover.run₄

end NewM2.M2Heap
