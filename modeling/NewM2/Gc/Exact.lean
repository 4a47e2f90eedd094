import NewM2.Gc.Run

/-! # One collection is exact

`runCollectCycle_exact`: from any tiled heap and any roots, a collection ends, keeps every reachable block
with its contents and without a mark, puts every other allocated block inside exactly one block of the
new free lists, and leaves clusters that are tiled by blocks of which no two neighbours are free. -/

namespace NewM2.Gc

/-- Allocated as before, without a mark. -/
structure KeptExactly (h h' : Heap) (b : Nat) : Prop where
  live : Live h'.mem h'.clusters b
  tag : tagOf h'.mem b = clearMark (tagOf h.mem b)
  size : blockSize h'.mem b = blockSize h.mem b
  payload : ∀ x, b + headerSize ≤ x → x < b + blockSize h.mem b → h'.mem x = h.mem x

/-- What a collection with the root words `words` does. -/
structure Exact (descs : Nat → TypeDesc) (words : List Nat) (h h' : Heap) : Prop where
  shape : SameShape h.clusters h'.clusters
  bump : ∀ c' ∈ h'.clusters, ∃ c ∈ h.clusters, c'.base = c.base ∧ c'.bump = c.bump
  kept : ∀ b, Reachable descs h words b → KeptExactly h h' b
  dead : ∀ b, Live h.mem h.clusters b → ¬ Reachable descs h words b →
    ∃! f, OnFreeList h'.mem h'.clusters f ∧ f ≤ b ∧ b + blockSize h.mem b ≤ f + blockSize h'.mem f
  tiled : ∀ c' ∈ h'.clusters, ∃ bs fl, c'.TiledExactly h'.mem bs fl ∧
    ∀ f ∈ fl, f + blockSize h'.mem f ∉ fl

section exact
variable {descs : Nat → TypeDesc} {h h' : Heap} {m m' : Mem} {cs cs' : List Cluster}
  {words : List Nat} {b f : Nat}

/-- The blocks on the new free lists are blocks. -/
theorem SweptAll.block_of_onFreeList (hs : SweptAll m cs m' cs') (hf : OnFreeList m' cs' f) :
    Block m' cs' f := by
  obtain ⟨c', hc', fl, hfl, hmem⟩ := hf
  obtain ⟨c, -, hcc⟩ := hs.each c' hc'
  obtain ⟨bs, fl', hl, -⟩ := hcc.listed
  obtain rfl := hfl.unique hl.chain
  exact hl.block hc' (hl.mem_of_free hmem)

/-- A block that dies is inside one block of the new free lists. -/
theorem SweptAll.existsUnique_dead (hs : SweptAll m cs m' cs') (hinv : ClustersTiled m cs)
    (hb : Block m cs b) (hdead : isFree (tagOf m b) ∨ ¬ isMarked (tagOf m b)) :
    ∃! f, OnFreeList m' cs' f ∧ f ≤ b ∧ b + blockSize m b ≤ f + blockSize m' f := by
  obtain ⟨f, hf, hle, hend⟩ := hs.dead b hb hdead
  refine ⟨f, ⟨hf, hle, hend⟩, ?_⟩
  rintro g ⟨hg, hle', hend'⟩
  by_contra hne
  have hmin := hinv.min_le hb
  have hdisjoint := (hs.clustersTiled hinv).disjoint (hs.block_of_onFreeList hg)
    (hs.block_of_onFreeList hf) hne
  unfold minBlock at hmin
  rcases hdisjoint with h' | h' <;> omega

theorem SweptCluster.tiled {c c' : Cluster} (hcc : SweptCluster m m' c c') :
    ∃ bs fl, c'.TiledExactly m' bs fl ∧ ∀ f ∈ fl, f + blockSize m' f ∉ fl := by
  obtain ⟨bs, fl, hl, hspaced⟩ := hcc.listed
  refine ⟨bs, fl, ⟨hl.tiled, hl.sizes, hl.starts, hl.chain, hl.nodup, fun b => ?_⟩, hspaced⟩
  rw [hl.free b, isFree, beq_iff_eq]
  simp

/-- The sweep keeps a marked block, and its marks come from the cycle itself. -/
theorem keptExactly_of_swept {m₂ : Mem} (hinv : HeapTiled descs h)
    (hretag : Retagged h.mem m₂ h.clusters) (hs : SweptAll m₂ h.clusters h'.mem h'.clusters)
    (hb : Live h.mem h.clusters b) (hm : isMarked (tagOf m₂ b)) : KeptExactly h h' b := by
  have hk := kept_of_swept hinv hretag hs hb hm
  obtain ⟨-, htag, -⟩ := hs.kept b ((hretag.live_iff hinv.clusters).2 hb) hm
  exact {
    live := hk.live
    tag := htag.trans (hretag.tag b hb.1)
    size := hk.blockSize_eq (hinv.clusters.min_le hb.1)
    payload := fun x h1 h2 => hk.bytes x (by unfold headerSize at h1; omega) h2 }

theorem runCollectCycle_exact (hinv : HeapTiled descs h) (mutators : List Mutator) :
    (∃ fuel, (runCollectCycle fuel descs h mutators).isSome) ∧
      ∀ fuel h' sum, runCollectCycle fuel descs h mutators = some (h', sum) →
        Exact descs (mutators.flatMap Mutator.rootWords) h h' := by
  constructor
  · obtain ⟨fuel, r, hres⟩ := runCollectCycle_terminates hinv mutators
    exact ⟨fuel, hres ▸ rfl⟩
  intro fuel h' sum hres
  obtain ⟨m₂, ⟨hretag, hmark, hexact, -⟩, hs, -, -⟩ := runCollectCycle_marked hinv hres
  have hinv₂ : ClustersTiled m₂ h.clusters := hretag.clusters hinv.clusters
  refine ⟨hs.shape, fun c' hc' => ?_, fun b hb => ?_, fun b hb hno => ?_, fun c' hc' => ?_⟩
  · obtain ⟨c, hc, hcc⟩ := hs.each c' hc'
    exact ⟨c, hc, hcc.base_eq, hcc.bump_eq⟩
  · have hlive := hb.live hinv
    exact keptExactly_of_swept hinv hretag hs hlive ((hexact b hlive).2 hb)
  · have hdead : isFree (tagOf m₂ b) ∨ ¬ isMarked (tagOf m₂ b) :=
      .inr fun hm => hno ((hexact b hb).1 hm)
    have := hs.existsUnique_dead hinv₂ ((hretag.block_iff hinv.clusters).2 hb.1) hdead
    rwa [hretag.blockSize_eq hinv.clusters hb.1] at this
  · obtain ⟨c, -, hcc⟩ := hs.each c' hc'
    exact hcc.tiled

/-- One record is on the stack and points to itself, the other one is dead. -/
theorem runCollectCycle_exact_reuse :
    (∃ fuel, (runCollectCycle fuel Sliver.descs Reuse.heap₃ [Sliver.mutator]).isSome) ∧
      ∀ fuel h' sum, runCollectCycle fuel Sliver.descs Reuse.heap₃ [Sliver.mutator] = some (h', sum) →
        Exact Sliver.descs ([Sliver.mutator].flatMap Mutator.rootWords) Reuse.heap₃ h' :=
  runCollectCycle_exact (Run.heapInv Reuse.run₃).tiled _

end exact

end NewM2.Gc
