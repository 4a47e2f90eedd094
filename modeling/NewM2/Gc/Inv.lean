import Mathlib.Data.List.Nodup
import NewM2.Gc.Words
import NewM2.Lib.Chain
import NewM2.Lib.Tiling

/-! # The invariant of one cluster

`ClusterTiled m c bs`: the walk of `c` visits the blocks `bs` and lands on `bump`, and the bitmap has
their starts. `ClusterListed m c held bs fl` adds that the free list is the chain of `fl`, which are the
free blocks without repetition, and `ClusterInv m c held bs fl` that the bytes behind `bump` are zero.
The blocks in `held` do not count as free: the block that an allocation has taken off the free list and
not yet given a tag, the blocks that a sweep has still to visit. -/

namespace NewM2.Gc

structure ClusterTiled (m : Mem) (c : Cluster) (bs : List Nat) : Prop where
  base_pos : 0 < c.base
  base_align : blockAlign ∣ c.base
  bump_le : c.bump ≤ c.size
  top_le : c.base + c.size ≤ 2 ^ 64
  words : c.blockStarts.length = (c.size / blockAlign + 63) / 64
  tiled : Tiled (blockSize m) c.base (c.base + c.bump) bs
  sizes : ∀ b ∈ bs, blockAlign ∣ blockSize m b ∧ minBlock ≤ blockSize m b
  starts : ∀ i, c.blockStarts.testBit i = true ↔ c.base + blockAlign * i ∈ bs

structure ClusterListed (m : Mem) (c : Cluster) (held : Nat → Prop) (bs fl : List Nat) : Prop
    extends ClusterTiled m c bs where
  chain : Chain (nextLink m) c.freeList fl
  nodup : fl.Nodup
  free : ∀ b, b ∈ fl ↔ b ∈ bs ∧ isFree (tagOf m b) ∧ ¬ held b

structure ClusterInv (m : Mem) (c : Cluster) (held : Nat → Prop) (bs fl : List Nat) : Prop
    extends ClusterListed m c held bs fl where
  zero : ∀ x, c.base + c.bump ≤ x → x < c.base + c.size → m x = 0

/-- The invariant between the operations of the collector. -/
abbrev ClusterOk (m : Mem) (c : Cluster) (bs fl : List Nat) : Prop :=
  ClusterInv m c (fun _ => False) bs fl

namespace ClusterTiled
variable {m m' : Mem} {c : Cluster} {a b x : Nat} {bs : List Nat}

theorem range (h : ClusterTiled m c bs) (hb : b ∈ bs) :
    c.base ≤ b ∧ b + blockSize m b ≤ c.base + c.bump ∧ minBlock ≤ blockSize m b :=
  ⟨(h.tiled.mem_range hb).1, (h.tiled.mem_range hb).2.1, (h.sizes b hb).2⟩

theorem disjoint (h : ClusterTiled m c bs) (ha : a ∈ bs) (hb : b ∈ bs) (hne : a ≠ b) :
    a + blockSize m a ≤ b ∨ b + blockSize m b ≤ a := h.tiled.disjoint ha hb hne

theorem apart (h : ClusterTiled m c bs) (ha : a ∈ bs) (hb : b ∈ bs) (hne : a ≠ b) : Apart a b := by
  have h₁ := (h.sizes a ha).2
  have h₂ := (h.sizes b hb).2
  unfold Apart
  rcases h.disjoint ha hb hne with h | h
  · exact .inl (by omega)
  · exact .inr (by omega)

theorem aligned (h : ClusterTiled m c bs) : blockAlign ∣ c.bump ∧ ∀ b ∈ bs, blockAlign ∣ b := by
  obtain ⟨hhi, hbs⟩ := h.tiled.dvd (fun b hb => (h.sizes b hb).1) h.base_align
  exact ⟨(Nat.dvd_add_right h.base_align).1 hhi, hbs⟩

/-- The index of a block's bit is in the bitmap. -/
theorem index_lt (h : ClusterTiled m c bs) (hx : x + minBlock ≤ c.size) :
    x / blockAlign / 64 < c.blockStarts.length := by
  rw [h.words]
  unfold blockAlign minBlock at *
  omega

/-- Block sizes as before. -/
theorem congr (h : ClusterTiled m c bs) (hsize : ∀ b ∈ bs, blockSize m' b = blockSize m b) :
    ClusterTiled m' c bs :=
  { h with
    tiled := h.tiled.congr hsize
    sizes := fun b hb => by
      rw [hsize b hb]
      exact h.sizes b hb }

/-- The header and the bytes of a block in a cluster that did not change. -/
theorem same_of_frame (h : ClusterTiled m c bs)
    (hm : ∀ x, c.base ≤ x → x < c.base + c.bump → m' x = m x) (hb : b ∈ bs) :
    tagOf m' b = tagOf m b ∧ blockSize m' b = blockSize m b ∧ nextLink m' b = nextLink m b ∧
      ∀ x, b ≤ x → x < b + blockSize m b → m' x = m x := by
  obtain ⟨hlo, hhi, hmin⟩ := h.range hb
  unfold minBlock at hmin
  have hbytes : ∀ x, b ≤ x → x < b + blockSize m b → m' x = m x := fun x h1 h2 =>
    hm x (by omega) (by omega)
  have := header_congr (b := b) fun x h1 h2 => hbytes x h1 (by omega)
  exact ⟨this.1, this.2.1, this.2.2, hbytes⟩

theorem frame (h : ClusterTiled m c bs) (hm : ∀ x, c.base ≤ x → x < c.base + c.bump → m' x = m x) :
    ClusterTiled m' c bs := h.congr fun _ hb => (h.same_of_frame hm hb).2.1

/-- No block of another cluster, and no address outside, is among the blocks. -/
theorem not_mem (h : ClusterTiled m c bs) (hx : x < c.base ∨ c.base + c.bump ≤ x) : x ∉ bs := by
  intro hmem
  have := h.range hmem
  unfold minBlock at this
  omega

end ClusterTiled

namespace ClusterListed
variable {m m' : Mem} {c : Cluster} {held held' : Nat → Prop} {b : Nat} {bs fl : List Nat}

theorem mem_of_free (h : ClusterListed m c held bs fl) (hb : b ∈ fl) : b ∈ bs := ((h.free b).1 hb).1

/-- Headers and free-list cells as before. -/
theorem congr (h : ClusterListed m c held bs fl)
    (hsize : ∀ b ∈ bs, blockSize m' b = blockSize m b)
    (hfree : ∀ b ∈ bs, ¬ held b → isFree (tagOf m' b) = isFree (tagOf m b))
    (hlink : ∀ b ∈ fl, nextLink m' b = nextLink m b) : ClusterListed m' c held bs fl where
  toClusterTiled := h.toClusterTiled.congr hsize
  chain := h.chain.congr hlink
  nodup := h.nodup
  free b := by
    rw [h.free b]
    refine and_congr_right fun hb => and_congr_left fun hne => ?_
    rw [hfree b hb hne]

/-- Other blocks are held, among those that look free. -/
theorem of_held (h : ClusterListed m c held bs fl)
    (hheld : ∀ b ∈ bs, isFree (tagOf m b) → (held' b ↔ held b)) : ClusterListed m c held' bs fl :=
  { h with
    free := fun b => by
      rw [h.free b]
      exact and_congr_right fun hb => and_congr_right fun hf => not_congr (hheld b hb hf).symm }

/-- Nothing changed inside the used part of the cluster. -/
theorem frame (h : ClusterListed m c held bs fl)
    (hm : ∀ x, c.base ≤ x → x < c.base + c.bump → m' x = m x) : ClusterListed m' c held bs fl :=
  h.congr (fun _ hb => (h.same_of_frame hm hb).2.1)
    (fun _ hb _ => by rw [(h.same_of_frame hm hb).1])
    fun _ hb => (h.same_of_frame hm (h.mem_of_free hb)).2.2.1

theorem head_lt (h : ClusterListed m c held bs fl) : c.freeList < 2 ^ 64 := by
  have hc := h.chain
  obtain _ | ⟨b, fl⟩ := fl
  · rw [Chain.nil_iff] at hc
    omega
  · have hb := h.range (h.mem_of_free (List.mem_cons_self ..))
    have := h.bump_le
    have := h.top_le
    unfold minBlock at hb
    rw [hc.1]
    omega

end ClusterListed

namespace ClusterInv
variable {m m' : Mem} {c : Cluster} {held held' : Nat → Prop} {b : Nat} {bs fl : List Nat}

/-- Headers and free-list cells as before, and still zeros at the end. -/
theorem congr (h : ClusterInv m c held bs fl) (hsize : ∀ b ∈ bs, blockSize m' b = blockSize m b)
    (hfree : ∀ b ∈ bs, ¬ held b → isFree (tagOf m' b) = isFree (tagOf m b))
    (hlink : ∀ b ∈ fl, nextLink m' b = nextLink m b)
    (hzero : ∀ x, c.base + c.bump ≤ x → x < c.base + c.size → m' x = m x) :
    ClusterInv m' c held bs fl where
  toClusterListed := h.toClusterListed.congr hsize hfree hlink
  zero x h1 h2 := (hzero x h1 h2).trans (h.zero x h1 h2)

theorem of_held (h : ClusterInv m c held bs fl)
    (hheld : ∀ b ∈ bs, isFree (tagOf m b) → (held' b ↔ held b)) : ClusterInv m c held' bs fl where
  toClusterListed := h.toClusterListed.of_held hheld
  zero := h.zero

/-- Nothing changed inside the cluster. -/
theorem frame (h : ClusterInv m c held bs fl)
    (hm : ∀ x, c.base ≤ x → x < c.base + c.size → m' x = m x) : ClusterInv m' c held bs fl where
  toClusterListed := h.toClusterListed.frame fun x h1 h2 => hm x h1 (by
    have := h.bump_le
    omega)
  zero x h1 h2 := (hm x (by omega) h2).trans (h.zero x h1 h2)

theorem same_of_frame (h : ClusterInv m c held bs fl)
    (hm : ∀ x, c.base ≤ x → x < c.base + c.size → m' x = m x) (hb : b ∈ bs) :
    tagOf m' b = tagOf m b ∧ blockSize m' b = blockSize m b ∧
      ∀ x, b ≤ x → x < b + blockSize m b → m' x = m x := by
  have hbump := h.bump_le
  obtain ⟨h1, h2, -, h3⟩ := h.toClusterTiled.same_of_frame (fun x h1 h2 => hm x h1 (by omega)) hb
  exact ⟨h1, h2, h3⟩

end ClusterInv
end NewM2.Gc
