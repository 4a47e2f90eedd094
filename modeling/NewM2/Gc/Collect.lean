import NewM2.Gc.Mark
import NewM2.Gc.Sweep

/-! # A collection

`Reachable` blocks are those that a root word points into, a module variable points to or a pointer field
of a reachable block points to. `runCollectCycle_spec`: a collection keeps the heap invariant and every
reachable block with its contents, and they stay reachable. -/

namespace NewM2.Gc

section sweep
variable {m m' m₁ : Mem} {c : Cluster} {cs : List Cluster} {bs : List Nat} {b : Nat}

theorem block_cons : Block m (c :: cs) b ↔
    (∃ bs, Tiled (blockSize m) c.base (c.base + c.bump) bs ∧ b ∈ bs) ∨ Block m cs b := by
  unfold Block
  simp only [List.mem_cons, exists_eq_or_imp]

/-- `f` is on the free list of a cluster. -/
def OnFreeList (m : Mem) (cs : List Cluster) (f : Nat) : Prop :=
  ∃ c ∈ cs, ∃ fl, Chain (nextLink m) c.freeList fl ∧ f ∈ fl

/-- What the sweep of all clusters leaves of one of them. -/
structure SweptCluster (m m' : Mem) (c c' : Cluster) : Prop where
  base_eq : c'.base = c.base
  size_eq : c'.size = c.size
  bump_eq : c'.bump = c.bump
  listed : ∃ bs fl, ClusterListed m' c' (fun _ => False) bs fl ∧ ∀ f ∈ fl, f + blockSize m' f ∉ fl
  behind : ∀ x, c.base + c.bump ≤ x → x < c.base + c.size → m' x = m x

/-- What a sweep of all clusters leaves. -/
structure SweptAll (m : Mem) (cs : List Cluster) (m' : Mem) (cs' : List Cluster) : Prop where
  shape : SameShape cs cs'
  each : ∀ c' ∈ cs', ∃ c ∈ cs, SweptCluster m m' c c'
  kept : ∀ b, Live m cs b → isMarked (tagOf m b) → Live m' cs' b ∧ KeptBlock m m' b
  only : ∀ b, Live m' cs' b → Live m cs b ∧ isMarked (tagOf m b)
  dead : ∀ b, Block m cs b → isFree (tagOf m b) ∨ ¬ isMarked (tagOf m b) →
    ∃ f, OnFreeList m' cs' f ∧ f ≤ b ∧ b + blockSize m b ≤ f + blockSize m' f
  frame : ∀ x, (∀ c ∈ cs, x < c.base ∨ c.base + c.bump ≤ x) → m' x = m x

namespace SweptAll
variable {c' : Cluster} {cs' : List Cluster} {bs' fl' : List Nat}

theorem clustersTiled (hs : SweptAll m cs m' cs') (hinv : ClustersTiled m cs) : ClustersTiled m' cs' where
  separate := hs.shape.pairwise hinv.separate
  each c' hc' := by
    obtain ⟨c, -, hcc⟩ := hs.each c' hc'
    obtain ⟨bs, fl, hl, -⟩ := hcc.listed
    exact ⟨bs, hl.toClusterTiled⟩

/-- The bytes behind the blocks stay zero. -/
theorem clustersOk (hs : SweptAll m cs m' cs') (hinv : ClustersOk m cs) : ClustersOk m' cs' where
  separate := hs.shape.pairwise hinv.separate
  each c' hc' := by
    obtain ⟨c, hc, hcc⟩ := hs.each c' hc'
    obtain ⟨bs, fl, hl, -⟩ := hcc.listed
    obtain ⟨bs₀, fl₀, hok⟩ := hinv.each c hc
    refine ⟨bs, fl, hl, fun x h1 h2 => ?_⟩
    rw [hcc.base_eq, hcc.bump_eq] at h1
    rw [hcc.base_eq, hcc.size_eq] at h2
    rw [hcc.behind x h1 h2, hok.zero x h1 h2]

theorem nil : SweptAll m [] m [] := by
  refine ⟨.nil, ?_, ?_, ?_, ?_, fun _ _ => rfl⟩
  · rintro c hc
    cases hc
  · rintro b ⟨⟨c, hc, -⟩, -⟩
    cases hc
  · rintro b ⟨⟨c, hc, -⟩, -⟩
    cases hc
  · rintro b ⟨c, hc, -⟩
    cases hc

theorem cons (hinv : ClustersTiled m (c :: cs)) (hc : ClusterTiled m c bs)
    (hs : Swept m c bs m₁ c' bs' fl') (ha : SweptAll m₁ cs m' cs') :
    SweptAll m (c :: cs) m' (c' :: cs') := by
  obtain ⟨hsep, hseps⟩ := List.pairwise_cons.1 hinv.separate
  have hbump := hc.bump_le
  have hbumps : ∀ d ∈ cs, d.bump ≤ d.size := fun d hd => by
    obtain ⟨bs, hd'⟩ := hinv.each d (by simp [hd])
    exact hd'.bump_le
  -- the sweep of `c` does not touch the others, and the sweeps of the others do not touch `c`
  have hframe₁ : ∀ d ∈ cs, ∀ x, d.base ≤ x → x < d.base + d.size → m₁ x = m x := by
    intro d hd x h1 h2
    refine hs.frame x ?_
    rcases hsep d hd with h' | h' <;> omega
  have hframe' : ∀ x, c.base ≤ x → x < c.base + c.size → m' x = m₁ x := by
    intro x h1 h2
    refine ha.frame x fun d hd => ?_
    have := hbumps d hd
    rcases hsep d hd with h' | h' <;> omega
  have hframe'' : ∀ x, c'.base ≤ x → x < c'.base + c'.bump → m' x = m₁ x := by
    rw [hs.base_eq, hs.bump_eq]
    exact fun x h1 h2 => hframe' x h1 (by omega)
  have hsame : ∀ d ∈ cs, ∃ bs, ClusterTiled m d bs ∧
      ∀ x, d.base ≤ x → x < d.base + d.bump → m₁ x = m x := fun d hd => by
    obtain ⟨bs, hd'⟩ := hinv.each d (by simp [hd])
    exact ⟨bs, hd', fun x h1 h2 => hframe₁ d hd x h1 (by have := hbumps d hd; omega)⟩
  have hblocks : ∀ b, Block m cs b → tagOf m₁ b = tagOf m b ∧ blockSize m₁ b = blockSize m b ∧
      Block m₁ cs b ∧ ∀ x, b ≤ x → x < b + blockSize m b → m₁ x = m x := by
    rintro b ⟨d, hd, bs, hbs, hb⟩
    obtain ⟨bs', hd', hsame⟩ := hsame d hd
    obtain rfl := hbs.unique hd'.tiled
    obtain ⟨h1, h2, -, h3⟩ := hd'.same_of_frame hsame hb
    exact ⟨h1, h2, ⟨d, hd, bs, (hd'.frame hsame).tiled, hb⟩, h3⟩
  have hblocks' : ∀ b, Block m₁ cs b → tagOf m₁ b = tagOf m b ∧ Block m cs b := by
    rintro b ⟨d, hd, bs, hbs, hb⟩
    obtain ⟨bs', hd', hsame⟩ := hsame d hd
    obtain rfl := hbs.unique (hd'.frame hsame).tiled
    exact ⟨(hd'.same_of_frame hsame hb).1, ⟨d, hd, bs, hd'.tiled, hb⟩⟩
  have hc' : ClusterListed m' c' (fun _ => False) bs' fl' := hs.inv.frame hframe''
  have hsizes : ∀ b ∈ bs', blockSize m' b = blockSize m₁ b := fun b hb =>
    (hs.inv.same_of_frame hframe'' hb).2.1
  have hspaced : ∀ f ∈ fl', f + blockSize m' f ∉ fl' := fun f hf => by
    rw [hsizes f (hc'.mem_of_free hf)]
    exact hs.spaced f hf
  refine ⟨.cons ⟨hs.base_eq, hs.size_eq⟩ ha.shape, fun d' hd' => ?_, fun b hb hm => ?_,
    fun b hb => ?_, fun b hb hdead => ?_, fun x hx => ?_⟩
  · rcases List.mem_cons.1 hd' with rfl | hd'
    · refine ⟨c, List.mem_cons_self .., hs.base_eq, hs.size_eq, hs.bump_eq,
        ⟨bs', fl', hc', hspaced⟩, fun x h1 h2 => ?_⟩
      rw [hframe' x (by omega) h2, hs.frame x (.inr h1)]
    · obtain ⟨d, hd, hdd⟩ := ha.each d' hd'
      refine ⟨d, List.mem_cons_of_mem _ hd, { hdd with behind := fun x h1 h2 => ?_ }⟩
      exact (hdd.behind x h1 h2).trans (hframe₁ d hd x (by omega) h2)
  · rcases block_cons.1 hb.1 with ⟨bs₀, hbs₀, hmem⟩ | hmem
    · obtain rfl := hbs₀.unique hc.tiled
      obtain ⟨hb', htag, hbytes⟩ := hs.kept b hmem hb.2 hm
      have hr := hc.range hmem
      obtain ⟨htag', -, -⟩ := hs.inv.same_of_frame hframe'' hb'
      refine ⟨⟨block_cons.2 (.inl ⟨bs', hc'.tiled, hb'⟩), ?_⟩, ?_, fun x h1 h2 => ?_⟩
      · rw [htag', htag, isFree_congr (clearMark_clearMark _)]
        exact hb.2
      · rw [htag', htag]
      · rw [hframe' x (by omega) (by omega), hbytes x h1 h2]
    · obtain ⟨htag, hsize, hb₁, hbytes⟩ := hblocks b hmem
      obtain ⟨hb', htag', hbytes'⟩ := ha.kept b ⟨hb₁, htag ▸ hb.2⟩ (htag ▸ hm)
      rw [hsize] at hbytes'
      exact ⟨⟨block_cons.2 (.inr hb'.1), hb'.2⟩, htag ▸ htag',
        fun x h1 h2 => (hbytes' x h1 h2).trans (hbytes x (by omega) h2)⟩
  · rcases block_cons.1 hb.1 with ⟨bs₀, hbs₀, hmem⟩ | hmem
    · obtain rfl := hbs₀.unique hc'.tiled
      obtain ⟨htag', -, -⟩ := hs.inv.same_of_frame hframe'' hmem
      obtain ⟨h1, h2, h3⟩ := hs.only b hmem (htag' ▸ hb.2)
      exact ⟨⟨block_cons.2 (.inl ⟨bs, hc.tiled, h1⟩), h2⟩, h3⟩
    · obtain ⟨h1, h2⟩ := ha.only b ⟨hmem, hb.2⟩
      obtain ⟨htag, hb₁⟩ := hblocks' b h1.1
      rw [htag] at h2
      exact ⟨⟨block_cons.2 (.inr hb₁), htag ▸ h1.2⟩, h2⟩
  · rcases block_cons.1 hb with ⟨bs₀, hbs₀, hmem⟩ | hmem
    · obtain rfl := hbs₀.unique hc.tiled
      obtain ⟨f, hf, hle, hend⟩ := hs.dead b hmem hdead
      refine ⟨f, ⟨c', List.mem_cons_self .., fl', hc'.chain, hf⟩, hle, ?_⟩
      rwa [hsizes f (hc'.mem_of_free hf)]
    · obtain ⟨htag, hsize, hb₁, -⟩ := hblocks b hmem
      rw [← htag] at hdead
      obtain ⟨f, ⟨d, hd, hf⟩, hle, hend⟩ := ha.dead b hb₁ hdead
      exact ⟨f, ⟨d, List.mem_cons_of_mem _ hd, hf⟩, hle, hsize ▸ hend⟩
  · rw [ha.frame x fun d hd => hx d (by simp [hd]), hs.frame x (hx c (by simp))]

end SweptAll

/-- The list has the blocks of the clusters, each once. -/
def ListsBlocks (m : Mem) (cs : List Cluster) (bs : List Nat) : Prop :=
  bs.Nodup ∧ ∀ b, b ∈ bs ↔ Block m cs b

theorem ListsBlocks.cons {bs' : List Nat} (hinv : ClustersTiled m (c :: cs)) (hc : ClusterTiled m c bs)
    (hl : ListsBlocks m cs bs') : ListsBlocks m (c :: cs) (bs ++ bs') := by
  obtain ⟨hsep, hseps⟩ := List.pairwise_cons.1 hinv.separate
  refine ⟨List.nodup_append'.2 ⟨hc.tiled.nodup, hl.1, fun b hb hb' => ?_⟩, fun b => ?_⟩
  · obtain ⟨d, hd, hmem⟩ := (hl.2 b).1 hb'
    obtain ⟨bs₀, hd'⟩ := hinv.each d (by simp [hd])
    obtain ⟨bs₁, htiled, hmem⟩ := hmem
    obtain rfl := htiled.unique hd'.tiled
    have h1 := hc.range hb
    have h2 := hd'.range hmem
    have := hc.bump_le
    have := hd'.bump_le
    unfold minBlock at *
    rcases hsep d hd with h' | h' <;> omega
  · rw [List.mem_append, hl.2 b, block_cons]
    refine or_congr_left ⟨fun hb => ⟨bs, hc.tiled, hb⟩, ?_⟩
    rintro ⟨bs₁, htiled, hmem⟩
    rwa [htiled.unique hc.tiled] at hmem

/-- What is behind the memory and the clusters in the outcome of a sweep. -/
def bookedBy (r : Registry × List (Nat × Nat) × CollectSummary) : Books :=
  ⟨r.1, r.2.1, r.2.2.blocksFreed, r.2.2.bytesFreed⟩

theorem sweepAll_spec (descs : Nat → TypeDesc) (hinv : ClustersTiled m cs) (reg : Registry)
    (pending : List (Nat × Nat)) (sum : CollectSummary) :
    SweptAll m cs (sweepAll descs cs m reg pending sum).1 (sweepAll descs cs m reg pending sum).2.1 ∧
      ∃ bs, ListsBlocks m cs bs ∧ bookedBy (sweepAll descs cs m reg pending sum).2.2 =
        bs.foldl (Books.visit descs m) ⟨reg, pending, sum.blocksFreed, sum.bytesFreed⟩ := by
  induction cs generalizing m reg pending sum with
  | nil =>
    refine ⟨.nil, [], ⟨List.nodup_nil, fun b => iff_of_false (by simp) ?_⟩, rfl⟩
    rintro ⟨c, hc, -⟩
    cases hc
  | cons c cs ih =>
    obtain ⟨bs, hc⟩ := hinv.each c (List.mem_cons_self ..)
    obtain ⟨⟨bs', fl', hs⟩, hbooks₁⟩ := clusterSweep_spec hc descs reg pending
    obtain ⟨hsep, hseps⟩ := List.pairwise_cons.1 hinv.separate
    have hframe : ∀ d ∈ cs, ∀ x, d.base ≤ x → x < d.base + d.bump →
        (clusterSweep descs m c reg pending).mem x = m x := by
      intro d hd x h1 h2
      obtain ⟨bs, hd'⟩ := hinv.each d (by simp [hd])
      have := hc.bump_le
      have := hd'.bump_le
      refine hs.frame x ?_
      rcases hsep d hd with h' | h' <;> omega
    have hinv₁ : ClustersTiled (clusterSweep descs m c reg pending).mem cs := by
      refine ⟨hseps, fun d hd => ?_⟩
      obtain ⟨bs, hd'⟩ := hinv.each d (by simp [hd])
      exact ⟨bs, hd'.frame (hframe d hd)⟩
    obtain ⟨ha, bs₁, hl, hbooks⟩ := ih hinv₁ (clusterSweep descs m c reg pending).reg
      (clusterSweep descs m c reg pending).pending (sum.add (clusterSweep descs m c reg pending).stats)
    have hsame : ∀ b ∈ bs₁, Block m cs b ∧
        tagOf (clusterSweep descs m c reg pending).mem b = tagOf m b ∧
        blockSize (clusterSweep descs m c reg pending).mem b = blockSize m b := by
      intro b hb
      obtain ⟨d, hd, bs₂, htiled, hmem⟩ := (hl.2 b).1 hb
      obtain ⟨bs₃, hd'⟩ := hinv.each d (by simp [hd])
      obtain rfl := htiled.unique (hd'.frame (hframe d hd)).tiled
      obtain ⟨h1, h2, -, -⟩ := hd'.same_of_frame (hframe d hd) hmem
      exact ⟨hd'.block hd hmem, h1, h2⟩
    have hl₁ : ListsBlocks m cs bs₁ := by
      refine ⟨hl.1, fun b => ⟨fun hb => (hsame b hb).1, ?_⟩⟩
      rintro ⟨d, hd, bs₂, htiled, hmem⟩
      obtain ⟨bs₃, hd'⟩ := hinv.each d (by simp [hd])
      obtain rfl := htiled.unique hd'.tiled
      exact (hl.2 b).2 ((hd'.frame (hframe d hd)).block hd hmem)
    refine ⟨ha.cons hinv hc hs, bs ++ bs₁, hl₁.cons hinv hc, ?_⟩
    -- the counts of a cluster start at 0
    have hstart : (⟨(clusterSweep descs m c reg pending).reg, (clusterSweep descs m c reg pending).pending,
        (sum.add (clusterSweep descs m c reg pending).stats).blocksFreed,
        (sum.add (clusterSweep descs m c reg pending).stats).bytesFreed⟩ : Books) =
        bs.foldl (Books.visit descs m) ⟨reg, pending, sum.blocksFreed, sum.bytesFreed⟩ := by
      rw [Books.foldl_visit, Books.ext_iff] at hbooks₁ ⊢
      obtain ⟨hreg, hpending, hblocks, hbytes⟩ := hbooks₁
      refine ⟨hreg, hpending, ?_, ?_⟩
      · exact congrArg (sum.blocksFreed + ·) (hblocks.trans (Nat.zero_add _))
      · exact congrArg (sum.bytesFreed + ·) (hbytes.trans (Nat.zero_add _))
    rw [List.foldl_append, ← hstart, ← Books.foldl_visit_congr fun b hb => (hsame b hb).2]
    exact hbooks

end sweep

/-! ## Reachable blocks -/

/-- A block that the root words or the module variables lead to. A root word leads to the block it
resolves to, the one whose payload contains it (`resolveHeapPtr_eq_some_iff`). -/
inductive Reachable (descs : Nat → TypeDesc) (h : Heap) (words : List Nat) : Nat → Prop
  | word {w p : Nat} : w ∈ words → resolveHeapPtr h.mem h.clusters w = some p →
      Reachable descs h words (p - headerSize)
  | slot {p : Nat} : p ∈ h.moduleSlots → p ≠ 0 → Reachable descs h words (p - headerSize)
  | field {b p : Nat} : Reachable descs h words b → p ∈ pointerFields h.mem descs b → p ≠ 0 →
      Reachable descs h words (p - headerSize)

/-- What a collection relies on: the clusters are tiled, the objects are well typed and all pointers
that the collector follows are null or payload starts. -/
structure HeapTiled (descs : Nat → TypeDesc) (h : Heap) : Prop where
  clusters : ClustersTiled h.mem h.clusters
  objects : ObjectsOk h.mem h.clusters h.typeDescs descs
  slots : ∀ p ∈ h.moduleSlots, PtrOk h.mem h.clusters p

/-- The heap invariant: in addition, the free lists hold the free blocks. -/
structure HeapInv (descs : Nat → TypeDesc) (h : Heap) : Prop where
  clusters : ClustersOk h.mem h.clusters
  objects : ObjectsOk h.mem h.clusters h.typeDescs descs
  slots : ∀ p ∈ h.moduleSlots, PtrOk h.mem h.clusters p

theorem HeapInv.tiled {descs : Nat → TypeDesc} {h : Heap} (hinv : HeapInv descs h) :
    HeapTiled descs h := ⟨hinv.clusters.tiled, hinv.objects, hinv.slots⟩

/-- `b` is allocated afterwards, with the same descriptor, size and payload. -/
structure Kept (m m' : Mem) (cs' : List Cluster) (b : Nat) : Prop where
  live : Live m' cs' b
  tag : clearMark (tagOf m' b) = clearMark (tagOf m b)
  bytes : ∀ x, b + 8 ≤ x → x < b + blockSize m b → m' x = m x

section kept
variable {descs : Nat → TypeDesc} {h h' : Heap} {m m' m'' : Mem} {cs' cs'' : List Cluster}
  {words : List Nat} {reg reg' : Registry} {b : Nat}

theorem Kept.blockSize_eq (hk : Kept m m' cs' b) (hmin : minBlock ≤ blockSize m b) :
    blockSize m' b = blockSize m b := by
  unfold minBlock at hmin
  exact rd_congr fun x h1 h2 => hk.bytes x h1 (by omega)

theorem Kept.trans (hk : Kept m m' cs' b) (hmin : minBlock ≤ blockSize m b)
    (hk' : Kept m' m'' cs'' b) : Kept m m'' cs'' b where
  live := hk'.live
  tag := hk'.tag.trans hk.tag
  bytes x h1 h2 := (hk'.bytes x h1 (hk.blockSize_eq hmin ▸ h2)).trans (hk.bytes x h1 h2)

theorem Kept.wellTyped (hk : Kept m m' cs' b) (hmin : minBlock ≤ blockSize m b)
    (hreg : ∀ a, (reg a).isSome → (reg' a).isSome) (ht : WellTyped m reg descs b) :
    WellTyped m' reg' descs b := by
  obtain ⟨h1, h2, h3⟩ := ht
  rw [← hk.tag] at h1 h2 h3
  exact ⟨hreg _ h1, h2, by rwa [hk.blockSize_eq hmin]⟩

theorem Kept.pointerFields_eq (hk : Kept m m' cs' b) (ht : WellTyped m reg descs b) :
    pointerFields m' descs b = pointerFields m descs b := by
  unfold pointerFields
  rw [hk.tag]
  refine List.map_congr_left fun o ho => rd_congr fun x h1 h2 => hk.bytes x ?_ ?_
  · unfold headerSize at h1
    omega
  · have := ht.wellFormed o ho
    have := ht.size_le
    unfold headerSize at *
    omega

theorem Reachable.live (hinv : HeapTiled descs h) (hr : Reachable descs h words b) :
    Live h.mem h.clusters b := by
  induction hr with
  | word _ hres =>
    obtain ⟨b, hb, -, -, rfl⟩ := (resolveHeapPtr_eq_some_iff hinv.clusters).1 hres
    rwa [Nat.add_sub_cancel]
  | slot hp hp0 =>
    obtain ⟨b, hb, rfl⟩ := (hinv.slots _ hp).resolve_left hp0
    rwa [Nat.add_sub_cancel]
  | field hr hp hp0 ih =>
    obtain ⟨b, hb, rfl⟩ := (hinv.objects.fields _ ih _ hp).resolve_left hp0
    rwa [Nat.add_sub_cancel]

/-- If every reachable block is kept and the module variables are the same, they stay reachable. -/
theorem Reachable.of_kept (hinv : HeapTiled descs h) (hinv' : HeapTiled descs h')
    (hslots : h'.moduleSlots = h.moduleSlots)
    (hkept : ∀ b, Reachable descs h words b → Kept h.mem h'.mem h'.clusters b)
    (hr : Reachable descs h words b) : Reachable descs h' words b := by
  induction hr with
  | word hw hres =>
    have hk := hkept _ (.word hw hres)
    obtain ⟨b, hb, hlo, hhi, rfl⟩ := (resolveHeapPtr_eq_some_iff hinv.clusters).1 hres
    rw [Nat.add_sub_cancel] at hk
    refine .word hw ((resolveHeapPtr_eq_some_iff hinv'.clusters).2 ⟨b, hk.live, hlo, ?_, rfl⟩)
    rwa [hk.blockSize_eq (hinv.clusters.min_le hb.1)]
  | slot hp hp0 => exact .slot (hslots ▸ hp) hp0
  | field hr hp hp0 ih =>
    refine .field ih ?_ hp0
    rwa [(hkept _ hr).pointerFields_eq (hinv.objects.typed _ (hr.live hinv))]

end kept

/-! ## One cycle -/

/-- What happens to the heap between two steps of the program. -/
structure Preserves (descs : Nat → TypeDesc) (words : List Nat) (h h' : Heap) : Prop where
  inv : HeapInv descs h'
  shape : SameShape h.clusters h'.clusters
  slots : h'.moduleSlots = h.moduleSlots
  kept : ∀ b, Reachable descs h words b → Kept h.mem h'.mem h'.clusters b

section cycle
variable {descs : Nat → TypeDesc} {h h' h'' : Heap} {m₁ m₂ : Mem} {words : List Nat} {fuel n n' : Nat}

theorem Preserves.refl (hinv : HeapInv descs h) : Preserves descs words h h :=
  ⟨hinv, .refl _, rfl, fun _ hb => ⟨hb.live hinv.tiled, rfl, fun _ _ _ => rfl⟩⟩

theorem Preserves.reachable (hinv : HeapInv descs h) (hp : Preserves descs words h h') {b : Nat}
    (hb : Reachable descs h words b) : Reachable descs h' words b :=
  hb.of_kept hinv.tiled hp.inv.tiled hp.slots hp.kept

theorem Preserves.trans (hinv : HeapInv descs h) (hp : Preserves descs words h h')
    (hp' : Preserves descs words h' h'') : Preserves descs words h h'' where
  inv := hp'.inv
  shape := hp.shape.trans hp'.shape
  slots := hp'.slots.trans hp.slots
  kept b hb := (hp.kept b hb).trans (hinv.clusters.tiled.min_le (hb.live hinv.tiled).1)
    (hp'.kept b (hp.reachable hinv hb))

/-- After marking, the marks contain the reachable blocks. -/
theorem marked_of_reachable {R : Nat → Prop} (hinv : HeapTiled descs h)
    (hretag : Retagged h.mem m₂ h.clusters) (hmark : MarkInv m₂ h.clusters h.typeDescs descs R [])
    (hwords : ∀ w ∈ words, ∀ b, Live h.mem h.clusters b → b + headerSize ≤ w →
      w < b + blockSize h.mem b → isMarked (tagOf m₂ b))
    (hslots : ∀ p ∈ h.moduleSlots, p ≠ 0 → isMarked (tagOf m₂ (p - headerSize))) {b : Nat}
    (hb : Reachable descs h words b) : isMarked (tagOf m₂ b) := by
  induction hb with
  | word hw hres =>
    obtain ⟨b, hb, hlo, hhi, rfl⟩ := (resolveHeapPtr_eq_some_iff hinv.clusters).1 hres
    rw [Nat.add_sub_cancel]
    exact hwords _ hw b hb hlo hhi
  | slot hp hp0 => exact hslots _ hp hp0
  | field hr hp hp0 ih =>
    have hlive := hr.live hinv
    rw [← pointerFields_retagged hretag hinv.clusters hlive (hinv.objects.typed _ hlive)] at hp
    have := hmark.closed _ ((hretag.live_iff hinv.clusters).2 hlive) ih _ hp
    exact (this.resolve_left hp0).resolve_right (by simp)

/-- Sweeping after marking keeps the marked blocks. -/
theorem kept_of_swept (hinv : HeapTiled descs h) (hretag : Retagged h.mem m₂ h.clusters) {m' : Mem}
    {cs' : List Cluster} (hs : SweptAll m₂ h.clusters m' cs') {b : Nat}
    (hb : Live h.mem h.clusters b) (hm : isMarked (tagOf m₂ b)) : Kept h.mem m' cs' b := by
  obtain ⟨hlive, htag, hbytes⟩ := hs.kept b ((hretag.live_iff hinv.clusters).2 hb) hm
  rw [hretag.blockSize_eq hinv.clusters hb.1] at hbytes
  refine ⟨hlive, ?_, fun x h1 h2 => ?_⟩
  · rw [htag, clearMark_clearMark, hretag.tag b hb.1]
  · rw [hbytes x h1 h2, hretag.bytes hinv.clusters hb.1 h1 h2]

/-- Clearing the marks leaves a heap that is ready to be marked. -/
theorem markInv_clearMarks (hinv : HeapTiled descs h) (words : List Nat) :
    Retagged h.mem (clearMarks h.mem h.clusters) h.clusters ∧
      MarkInv (clearMarks h.mem h.clusters) h.clusters h.typeDescs descs
        (Reachable descs h words) [] := by
  obtain ⟨hretag, hunmarked⟩ := clearMarks_spec hinv.clusters
  have hnone : ∀ b, Live (clearMarks h.mem h.clusters) h.clusters b →
      ¬ isMarked (tagOf (clearMarks h.mem h.clusters) b) := fun b hb => by
    rw [hunmarked b ((hretag.block_iff hinv.clusters).1 hb.1)]
    simp
  refine ⟨hretag, hretag.clusters hinv.clusters, hinv.objects.retagged hretag hinv.clusters,
    fun p hp => (List.not_mem_nil hp).elim, fun b hb hm => absurd hm (hnone b hb),
    fun p hp => (List.not_mem_nil hp).elim, fun b hb hm => absurd hm (hnone b hb),
    fun b hb hr p hp hp0 => ?_⟩
  rw [hretag.live_iff hinv.clusters] at hb
  rw [pointerFields_retagged hretag hinv.clusters hb (hinv.objects.typed b hb)] at hp
  exact hr.field hp hp0

/-- The words of the roots point into reachable blocks. -/
theorem wordsIn_reachable (hinv : HeapTiled descs h) (words : List Nat) :
    WordsIn h.mem h.clusters (Reachable descs h words) words := by
  intro w hw b hb hlo hhi
  have := @Reachable.word descs h words w _ hw
    ((resolveHeapPtr_eq_some_iff hinv.clusters).2 ⟨b, hb, hlo, hhi, rfl⟩)
  rwa [Nat.add_sub_cancel] at this

/-- A cycle up to its sweep: `m₂` has the marks. -/
structure Marked (descs : Nat → TypeDesc) (h : Heap) (words : List Nat) (m₂ : Mem) : Prop where
  retag : Retagged h.mem m₂ h.clusters
  inv : MarkInv m₂ h.clusters h.typeDescs descs (Reachable descs h words) []
  exact : ∀ b, Live h.mem h.clusters b → (isMarked (tagOf m₂ b) ↔ Reachable descs h words b)
  slots : ∀ p ∈ h.moduleSlots, p ≠ 0 → isMarked (tagOf m₂ (p - headerSize))

/-- A cycle marks exactly the reachable blocks and sweeps the others. -/
theorem runCollectCycle_marked {mutators : List Mutator} {sum : CollectSummary}
    (hinv : HeapTiled descs h) (hres : runCollectCycle fuel descs h mutators = some (h', sum)) :
    ∃ m₂, Marked descs h (mutators.flatMap Mutator.rootWords) m₂ ∧
      SweptAll m₂ h.clusters h'.mem h'.clusters ∧ h'.moduleSlots = h.moduleSlots ∧
      ∃ bs pending, ListsBlocks m₂ h.clusters bs ∧ h'.pendingFinalizers = h.pendingFinalizers ++ pending ∧
        (⟨h'.typeDescs, pending, sum.blocksFreed, sum.bytesFreed⟩ : Books) =
          bs.foldl (Books.visit descs m₂) ⟨h.typeDescs, [], 0, 0⟩ := by
  unfold runCollectCycle at hres
  dsimp only at hres
  split at hres
  · cases hres
  next m₁ n₁ hwords =>
  split at hres
  · cases hres
  next m₂ n₂ hslots =>
  obtain ⟨hretag₀, hmark₀⟩ := markInv_clearMarks hinv (mutators.flatMap Mutator.rootWords)
  have hinv₀ := hmark₀.clusters
  obtain ⟨hmarks₁, hmark₁, hroots₁⟩ := markWords_spec hmark₀
    ((wordsIn_reachable hinv _).retagged hretag₀ hinv.clusters) hwords
  have hslotsOk : ∀ p ∈ h.moduleSlots, PtrOk m₁ h.clusters p := fun p hp =>
    (PtrOk.retagged hmarks₁.toRetagged hinv₀).2
      ((PtrOk.retagged hretag₀ hinv.clusters).2 (hinv.slots p hp))
  obtain ⟨hmarks₂, hmark₂, hroots₂⟩ := markSlots_spec hmark₁ hslotsOk (fun p hp => .slot hp) hslots
  have hretag : Retagged h.mem m₂ h.clusters :=
    hretag₀.trans hinv.clusters (hmarks₁.trans hinv₀ hmarks₂).toRetagged
  obtain ⟨hs, bs, hl, hbooks⟩ :=
    sweepAll_spec descs hmark₂.clusters h.typeDescs [] { rootsMarked := n₂ }
  generalize sweepAll descs h.clusters m₂ h.typeDescs [] { rootsMarked := n₂ } = r at *
  obtain ⟨m', cs', reg', pending, sum'⟩ := r
  cases hres
  refine ⟨m₂, ⟨hretag, hmark₂, fun b hb => ⟨fun hm => ?_, fun hb => ?_⟩, hroots₂⟩, hs, rfl, bs, pending, hl, rfl,
    hbooks⟩
  · exact hmark₂.markedIn b ((hretag.live_iff hinv.clusters).2 hb) hm
  · refine marked_of_reachable hinv hretag hmark₂ (fun w hw b hb hlo hhi => ?_) hroots₂ hb
    have hb₀ := (hretag₀.live_iff hinv.clusters).2 hb
    refine hmarks₂.marked b ((hmarks₁.toRetagged.block_iff hinv₀).2 hb₀.1)
      (hroots₁ w hw b hb₀ hlo ?_)
    rwa [hretag₀.blockSize_eq hinv.clusters hb.1]

theorem runCollectCycle_spec {mutators : List Mutator} {sum : CollectSummary}
    (hinv : HeapInv descs h) (hres : runCollectCycle fuel descs h mutators = some (h', sum)) :
    Preserves descs (mutators.flatMap Mutator.rootWords) h h' := by
  have ht := hinv.tiled
  obtain ⟨m₂, ⟨hretag, hmark₂, hexact, hroots₂⟩, hs, hslots, bs, pending, hl, -, hbooks⟩ :=
    runCollectCycle_marked ht hres
  have hreg (a : Nat) : (h'.typeDescs a).isSome = (h.typeDescs a).isSome := by
    rw [Books.foldl_visit] at hbooks
    rw [show h'.typeDescs a = _ from congrFun (congrArg Books.reg hbooks) a, Option.isSome_map]
  have hkept := fun b (hb : Live h.mem h.clusters b) hm => kept_of_swept ht hretag hs hb hm
  -- an allocated block afterwards was allocated and marked, so it was kept
  have honly : ∀ b, Live h'.mem h'.clusters b → Live h.mem h.clusters b ∧ isMarked (tagOf m₂ b) :=
    fun b hb => ⟨(hretag.live_iff ht.clusters).1 (hs.only b hb).1, (hs.only b hb).2⟩
  have hptr : ∀ p, PtrOk h.mem h.clusters p → (p = 0 ∨ isMarked (tagOf m₂ (p - headerSize))) →
      PtrOk h'.mem h'.clusters p := by
    rintro p (hp | ⟨b, hb, rfl⟩) hm
    · exact .inl hp
    · refine .inr ⟨b, ?_, rfl⟩
      rw [Nat.add_sub_cancel] at hm
      exact (hkept b hb (hm.resolve_left (by unfold headerSize; omega))).live
  refine ⟨⟨hs.clustersOk (hretag.clustersInv hinv.clusters), ⟨fun b hb => ?_, fun b hb p hp => ?_⟩,
    fun p hp => ?_⟩, hs.shape, hslots, fun b hb => hkept b (hb.live ht) ((hexact b (hb.live ht)).2 hb)⟩
  · obtain ⟨hb, hm⟩ := honly b hb
    exact (hkept b hb hm).wellTyped (ht.clusters.min_le hb.1) (fun a ha => (hreg a).trans ha)
      (ht.objects.typed b hb)
  · obtain ⟨hb, hm⟩ := honly b hb
    have htyped := ht.objects.typed b hb
    rw [(hkept b hb hm).pointerFields_eq htyped] at hp
    refine hptr p (ht.objects.fields b hb p hp) ?_
    rw [← pointerFields_retagged hretag ht.clusters hb htyped] at hp
    exact (hmark₂.closed b ((hretag.live_iff ht.clusters).2 hb) hm p hp).imp_right fun h' =>
      h'.resolve_right (by simp)
  · rw [hslots] at hp
    refine hptr p (ht.slots p hp) ?_
    by_cases hp0 : p = 0
    · exact .inl hp0
    · exact .inr (hroots₂ p hp hp0)

/-- Every collection ends: from some fuel on the mark loops have enough. -/
theorem runCollectCycle_terminates (hinv : HeapTiled descs h) (mutators : List Mutator) :
    ∃ fuel r, runCollectCycle fuel descs h mutators = some r := by
  obtain ⟨hretag₀, hmark₀⟩ := markInv_clearMarks hinv (mutators.flatMap Mutator.rootWords)
  have hws := (wordsIn_reachable hinv (mutators.flatMap Mutator.rootWords)).retagged hretag₀ hinv.clusters
  obtain ⟨fuel₁, ⟨m₁, n₁⟩, hwords⟩ := markWords_terminates hmark₀ hws 0
  obtain ⟨hmarks₁, hmark₁, -⟩ := markWords_spec hmark₀ hws hwords
  obtain ⟨fuel₂, ⟨m₂, n₂⟩, hslots⟩ := markSlots_terminates hmark₁
    (fun p (hp : p ∈ h.moduleSlots) => (PtrOk.retagged hmarks₁.toRetagged hmark₀.clusters).2
      ((PtrOk.retagged hretag₀ hinv.clusters).2 (hinv.slots p hp))) (fun p hp => .slot hp) n₁
  refine ⟨max fuel₁ fuel₂, ?_⟩
  unfold runCollectCycle
  dsimp only
  rw [markWords_mono (le_max_left ..) hwords]
  dsimp only
  rw [markSlots_mono (le_max_right ..) hslots]
  exact ⟨_, rfl⟩

end cycle

end NewM2.Gc
