import NewM2.Gc.Alloc
import NewM2.Gc.Collect

/-! # Allocating a record

`nm2NewRec` searches the clusters, collects if none has room, and at last adds a cluster.
`nm2NewRec_spec`: it keeps the heap invariant and every reachable block, and the record it returns is a
zeroed block of its own, unless one of the searches takes a sliver (`Heap.newRecSliver`). -/

namespace NewM2.Gc

/-- The first cluster that serves the allocation takes a block that leaves a rest of 16 bytes. -/
def takesSliver (m : Mem) (total : Nat) : List Cluster → Bool
  | [] => false
  | c :: cs => c.fitsSliver m total || ((c.tryAlloc m total).isNone && takesSliver m total cs)

/-- The heap after an allocation has found `block`, before its header is written. -/
structure Found (m₀ : Mem) (cs₀ : List Cluster) (total : Nat) (m : Mem) (cs : List Cluster)
    (block : Nat) : Prop where
  clusters : ClustersInv m cs (· = block)
  mem : Block m cs block
  size_eq : blockSize m block = total
  payload : ∀ x, block + headerSize ≤ x → x < block + total → m x = 0
  kept : ∀ b, Live m₀ cs₀ b → b ≠ block ∧ Kept m₀ m cs b
  only : ∀ b, Live m cs b → b ≠ block → Live m₀ cs₀ b
  used : ∀ c ∈ cs₀, ∃ c' ∈ cs, c'.base = c.base ∧ c.bump ≤ c'.bump

section found
variable {m m' m₀ : Mem} {c c' : Cluster} {cs cs' cs₀ pre post : List Cluster} {bs fl bs' fl' : List Nat}
  {total block b tag : Nat}

theorem Found.of_allocated (hinv : ClustersOk m (pre ++ c :: post)) (hc : ClusterOk m c bs fl)
    (ha : ClusterInv.Allocated m c bs total m' c' block bs' fl') :
    Found m (pre ++ c :: post) total m' (pre ++ c' :: post) block := by
  have hmem : c ∈ pre ++ c :: post := by simp
  have hshape : SameShape (pre ++ c :: post) (pre ++ c' :: post) :=
    List.rel_append (SameShape.refl pre) (.cons ⟨ha.base, ha.size⟩ (SameShape.refl post))
  have hframe : ∀ x, x < c.base ∨ c.base + c.size ≤ x → m' x = m x := by
    intro x hx
    have := hc.bump_le
    refine ha.frame x (fun b hb _ => ?_) (by omega)
    have := hc.range hb
    omega
  -- the clusters before and behind `c` are as they were
  have hsep : ∀ d ∈ pre ++ post, d.Separate c := by
    have hp := hinv.separate
    rw [List.pairwise_append, List.pairwise_cons] at hp
    intro d hd
    rcases List.mem_append.1 hd with hd | hd
    · exact hp.2.2 d hd c (by simp)
    · exact Std.Symm.symm _ _ (hp.2.1.1 d hd)
  have hother : ∀ d ∈ pre ++ post, ∀ x, d.base ≤ x → x < d.base + d.size → m' x = m x := by
    intro d hd x h1 h2
    refine hframe x ?_
    rcases hsep d hd with h | h <;> omega
  have hold : ∀ d ∈ pre ++ post, ∃ bs fl, ClusterOk m d bs fl := fun d hd =>
    hinv.each d (by simp at hd ⊢; tauto)
  have hnew := ha.inv.range ha.mem
  have hbump := ha.inv.bump_le
  rw [ha.base] at hnew
  rw [ha.size] at hbump
  unfold minBlock at hnew
  have hout : ∀ d ∈ pre ++ post, ∀ bs fl, ClusterOk m d bs fl → block ∉ bs := by
    intro d hd bs fl hd' hb
    have hr := hd'.range hb
    have := hd'.bump_le
    unfold minBlock at hr
    rcases hsep d hd with h | h <;> omega
  refine {
    clusters := ⟨hshape.pairwise hinv.separate, fun d hd => ?_⟩
    mem := ⟨c', by simp, bs', ha.inv.tiled, ha.mem⟩
    size_eq := ha.blockSize_eq
    payload := ha.payload
    kept := fun b hb => ?_
    only := fun b hb hne => ?_
    used := fun d hd => ?_ }
  · by_cases hdc : d = c'
    · rw [hdc]
      exact ⟨bs', fl', ha.inv⟩
    · have hd' : d ∈ pre ++ post := by simp at hd ⊢; tauto
      obtain ⟨bs, fl, hok⟩ := hold d hd'
      refine ⟨bs, fl, (hok.frame (hother d hd')).of_held fun b hb _ => iff_of_false ?_ not_false⟩
      rintro rfl
      exact hout d hd' bs fl hok hb
  · obtain ⟨⟨d, hd, bs₁, hbs₁, hb₁⟩, hfree⟩ := hb
    by_cases hdc : d = c
    · subst hdc
      obtain rfl := hbs₁.unique hc.tiled
      have hne : b ≠ block := by
        rintro rfl
        exact hfree (ha.was_free hb₁)
      have hr := hc.range hb₁
      have hbytes : ∀ x, b ≤ x → x < b + blockSize m b → m' x = m x := by
        intro x h1 h2
        refine ha.frame x (fun a hma hfa => ?_) (.inl (by omega))
        have hne' : a ≠ b := by
          rintro rfl
          exact hfree hfa
        have := hc.disjoint hma hb₁ hne'
        omega
      unfold minBlock at hr
      have htag : tagOf m' b = tagOf m b := rd_congr fun x h1 h2 => hbytes x h1 (by omega)
      refine ⟨hne, ⟨⟨c', by simp, bs', ha.inv.tiled, ha.keeps b hb₁⟩, by rwa [htag]⟩, by rw [htag],
        fun x h1 h2 => hbytes x (by omega) h2⟩
    · have hd' : d ∈ pre ++ post := by simp at hd ⊢; tauto
      obtain ⟨bs₂, fl₂, hok⟩ := hold d hd'
      obtain rfl := hbs₁.unique hok.tiled
      obtain ⟨htag, -, hbytes⟩ := hok.same_of_frame (hother d hd') hb₁
      refine ⟨fun heq => hout d hd' _ _ hok (heq ▸ hb₁), ⟨⟨d, by simp at hd' ⊢; tauto, bs₁,
        (hok.frame (hother d hd')).tiled, hb₁⟩, by rwa [htag]⟩, by rw [htag],
        fun x h1 h2 => hbytes x (by omega) h2⟩
  · obtain ⟨⟨d, hd, bs₁, hbs₁, hb₁⟩, hfree⟩ := hb
    by_cases hdc : d = c'
    · subst hdc
      obtain rfl := hbs₁.unique ha.inv.tiled
      obtain ⟨hb, hnf⟩ := ha.only b hb₁ hne hfree
      exact ⟨⟨c, hmem, bs, hc.tiled, hb⟩, hnf⟩
    · have hd' : d ∈ pre ++ post := by simp at hd ⊢; tauto
      obtain ⟨bs₂, fl₂, hok⟩ := hold d hd'
      obtain rfl := hbs₁.unique (hok.frame (hother d hd')).tiled
      obtain ⟨htag, -, -⟩ := hok.same_of_frame (hother d hd') hb₁
      exact ⟨⟨d, by simp at hd' ⊢; tauto, bs₁, hok.tiled, hb₁⟩, by rwa [← htag]⟩
  · rw [List.mem_append, List.mem_cons] at hd
    rcases hd with hd | rfl | hd
    · exact ⟨d, by simp [hd], rfl, le_rfl⟩
    · exact ⟨c', by simp, ha.base, ha.bump⟩
    · exact ⟨d, by simp [hd], rfl, le_rfl⟩

theorem tryAllocInClusters_spec {path : AllocPath} (halign : blockAlign ∣ total)
    (hmin : minBlock ≤ total) (pre : List Cluster) (hinv : ClustersOk m (pre ++ cs))
    (hs : ¬ takesSliver m total cs) (hres : tryAllocInClusters m total cs = some (m', cs', block, path)) :
    Found m (pre ++ cs) total m' (pre ++ cs') block := by
  induction cs generalizing pre cs' with
  | nil => cases hres
  | cons c cs ih =>
    unfold takesSliver at hs
    rw [Bool.or_eq_true, Bool.and_eq_true, not_or] at hs
    unfold tryAllocInClusters at hres
    split at hres
    · next m₁ c₁ b p hc =>
      cases hres
      obtain ⟨bs, fl, hok⟩ := hinv.each c (by simp)
      obtain ⟨bs', fl', ha⟩ := hok.tryAlloc_spec halign hmin hs.1 hc
      exact .of_allocated hinv hok ha
    · next hc =>
      split at hres
      · next m₁ cs₁ b p hcs =>
        cases hres
        have hs' : ¬ takesSliver m total cs := fun h => hs.2 ⟨by rw [hc]; rfl, h⟩
        have := ih (pre ++ [c]) (by simpa using hinv) hs' hcs
        simpa using this
      · cases hres

/-- What the operating system promises of the memory for a new cluster. -/
structure ValidBase (cs : List Cluster) (base total : Nat) : Prop where
  pos : 0 < base
  aligned : blockAlign ∣ base
  top_le : base + max total defaultClusterSize ≤ 2 ^ 64
  separate : ∀ c ∈ cs, c.Separate (Cluster.new base total)

theorem ValidBase.of_shape {base : Nat} (hb : ValidBase cs base total) (hs : SameShape cs cs') :
    ValidBase cs' base total :=
  ⟨hb.pos, hb.aligned, hb.top_le, fun c hc => Std.Symm.symm _ _
    (hs.forall_separate (fun d hd => Std.Symm.symm _ _ (hb.separate d hd)) c hc)⟩

/-- A new, empty cluster. -/
theorem clusterOk_new {base : Nat} (hb : ValidBase cs base total) :
    ClusterOk (Mem.fill m base (max total defaultClusterSize)) (Cluster.new base total) [] [] where
  base_pos := hb.pos
  base_align := hb.aligned
  bump_le := Nat.zero_le _
  top_le := hb.top_le
  words := List.length_replicate
  tiled := rfl
  sizes _ hb := by cases hb
  starts i := by
    refine iff_of_false ?_ List.not_mem_nil
    rw [show (Cluster.new base total).blockStarts.testBit i = false from
      Bitmap.testBit_replicate_zero ..]
    exact Bool.false_ne_true
  chain := rfl
  nodup := List.nodup_nil
  free b := iff_of_false List.not_mem_nil fun h => List.not_mem_nil h.1
  zero _ h1 h2 := Mem.fill_of_mem m h1 h2

theorem block_append_singleton : Block m (cs ++ [c]) b ↔
    Block m cs b ∨ ∃ bs, Tiled (blockSize m) c.base (c.base + c.bump) bs ∧ b ∈ bs := by
  unfold Block
  simp only [List.mem_append, List.mem_singleton, or_and_right, exists_or, exists_eq_left]

/-- The clusters with a new one behind them. -/
theorem clustersOk_grow {base : Nat} (hinv : ClustersOk m cs) (hb : ValidBase cs base total) :
    ClustersOk (Mem.fill m base (max total defaultClusterSize)) (cs ++ [Cluster.new base total]) ∧
      ∀ c ∈ cs, ∀ x, c.base ≤ x → x < c.base + c.size →
        Mem.fill m base (max total defaultClusterSize) x = m x := by
  have hframe : ∀ c ∈ cs, ∀ x, c.base ≤ x → x < c.base + c.size →
      Mem.fill m base (max total defaultClusterSize) x = m x := by
    intro c hc x h1 h2
    refine Mem.fill_of_disjoint m ?_
    rcases hb.separate c hc with h | h
    · exact .inl (by have : c.base + c.size ≤ base := h; omega)
    · exact .inr (by have : base + max total defaultClusterSize ≤ c.base := h; omega)
  refine ⟨⟨List.pairwise_append.2 ⟨hinv.separate, List.pairwise_singleton .., fun c hc d hd => ?_⟩,
    fun c hc => ?_⟩, hframe⟩
  · rw [List.mem_singleton.1 hd]
    exact hb.separate c hc
  · rcases List.mem_append.1 hc with hc | hc
    · obtain ⟨bs, fl, hok⟩ := hinv.each c hc
      exact ⟨bs, fl, hok.frame (hframe c hc)⟩
    · rw [List.mem_singleton.1 hc]
      exact ⟨[], [], clusterOk_new hb⟩

theorem growAlloc_spec {h h' : Heap} {base : Nat} (halign : blockAlign ∣ total)
    (hmin : minBlock ≤ total) (hinv : ClustersOk h.mem h.clusters)
    (hbase : ValidBase h.clusters base total) (hres : growAlloc h base total = some (h', block)) :
    Found h.mem h.clusters total h'.mem h'.clusters block ∧
      h' = { h with mem := h'.mem, clusters := h'.clusters } := by
  unfold growAlloc at hres
  dsimp only at hres
  split at hres
  · cases hres
  next m' c' b path hc =>
  cases hres
  refine ⟨?_, rfl⟩
  obtain ⟨hgrow, hframe⟩ := clustersOk_grow hinv hbase
  have hsliver : ¬ (Cluster.new base total).fitsSliver
      (Mem.fill h.mem base (max total defaultClusterSize)) total := Bool.false_ne_true
  obtain ⟨bs', fl', ha⟩ := (clusterOk_new hbase).tryAlloc_spec halign hmin hsliver hc
  have hf := Found.of_allocated hgrow (clusterOk_new hbase) ha
  have hcluster : ∀ b, Block h.mem h.clusters b →
      Block (Mem.fill h.mem base (max total defaultClusterSize))
        (h.clusters ++ [Cluster.new base total]) b ∧
      tagOf (Mem.fill h.mem base (max total defaultClusterSize)) b = tagOf h.mem b ∧
      blockSize (Mem.fill h.mem base (max total defaultClusterSize)) b = blockSize h.mem b ∧
      ∀ x, b ≤ x → x < b + blockSize h.mem b →
        Mem.fill h.mem base (max total defaultClusterSize) x = h.mem x := by
    rintro b ⟨c, hc, bs, hbs, hmem⟩
    obtain ⟨bs₁, fl, hok⟩ := hinv.each c hc
    obtain rfl := hbs.unique hok.tiled
    exact ⟨⟨c, by simp [hc], bs, (hok.frame (hframe c hc)).tiled, hmem⟩,
      hok.same_of_frame (hframe c hc) hmem⟩
  refine {
    clusters := hf.clusters
    mem := hf.mem
    size_eq := hf.size_eq
    payload := hf.payload
    kept := fun b hb => ?_
    only := fun b hb hne => ?_
    used := fun c hc => hf.used c (List.mem_append_left _ hc) }
  · obtain ⟨hblock, htag, hsize, hbytes⟩ := hcluster b hb.1
    obtain ⟨hne, hk⟩ := hf.kept b ⟨hblock, by rw [htag]; exact hb.2⟩
    have hmin := hinv.tiled.min_le hb.1
    unfold minBlock at hmin
    refine ⟨hne, hk.live, by rw [hk.tag, htag], fun x h1 h2 => ?_⟩
    exact (hk.bytes x h1 (by rwa [hsize])).trans (hbytes x (by omega) h2)
  · obtain ⟨hblock, hfree⟩ := hf.only b hb hne
    rcases block_append_singleton.1 hblock with ⟨c, hc, bs, hbs, hmem⟩ | ⟨bs, hbs, hmem⟩
    · obtain ⟨bs₁, fl, hok⟩ := hinv.each c hc
      obtain rfl := hbs.unique (hok.frame (hframe c hc)).tiled
      refine ⟨⟨c, hc, bs, hok.tiled, hmem⟩, ?_⟩
      rwa [(hok.same_of_frame (hframe c hc) hmem).1] at hfree
    · obtain rfl := hbs.unique (clusterOk_new hbase).tiled
      cases hmem

/-! ## The header of the new block -/

/-- The block an allocation holds becomes an allocated one. -/
theorem ClustersInv.claim (h : ClustersInv m cs (· = block)) (hb : Block m cs block)
    (htag : isFree tag = false) (hlt : tag < 2 ^ 64) : ClustersOk (wr m block tag) cs where
  separate := h.separate
  each c hc := by
    obtain ⟨bs, fl, hok⟩ := h.each c hc
    by_cases hmem : block ∈ bs
    · exact ⟨bs, fl, hok.claim hmem htag hlt⟩
    -- `block` belongs to another cluster
    obtain ⟨d, hd, bs', fl', hok', hmem'⟩ := h.exists_cluster hb
    have hne : c ≠ d := by
      rintro rfl
      rw [hok'.tiled.unique hok.tiled] at hmem'
      exact hmem hmem'
    have hr := hok'.range hmem'
    have := hok'.bump_le
    unfold minBlock at hr
    have hframe : ∀ x, c.base ≤ x → x < c.base + c.size → wr m block tag x = m x := by
      intro x h1 h2
      refine wr_of_apart ?_
      rcases h.tiled.separate_of_ne hc hd hne with h' | h' <;> omega
    refine ⟨bs, fl, (hok.frame hframe).of_held fun b hb' _ => iff_of_false not_false ?_⟩
    rintro rfl
    exact hmem hb'

/-- A descriptor the compiler emits, at its address `tag`. -/
structure ValidTag (descs : Nat → TypeDesc) (tag : Nat) : Prop where
  lt : tag < 2 ^ 64
  unmarked : clearMark tag = tag
  ne_zero : tag ≠ 0
  wellFormed : (descs tag).WellFormed
  size_bounds : -2 ^ 63 ≤ (descs tag).size ∧ (descs tag).size < 2 ^ 63

/-- A negative size wraps, and then the block is too large to be found or has the minimal size. -/
theorem ValidTag.recSize_spec {descs : Nat → TypeDesc} (h : ValidTag descs tag) :
    blockAlign ∣ recSize descs tag ∧ minBlock ≤ recSize descs tag ∧
      (descs tag).size + headerSize ≤ recSize descs tag := by
  have halign : ∀ n, blockAlign ∣ alignUp n := fun n => Nat.dvd_mul_left ..
  have hsize := h.size_bounds
  unfold recSize totalBlockSize
  refine ⟨?_, le_max_right .., ?_⟩
  · rcases max_choice (alignUp ((headerSize + ((descs tag).size % 2 ^ 64).toNat) % 2 ^ 64)) minBlock with
      heq | heq
    · rw [heq]
      exact halign _
    · rw [heq]
      exact ⟨2, rfl⟩
  · by_cases hneg : (descs tag).size < 0
    · have := le_max_right (alignUp ((headerSize + ((descs tag).size % 2 ^ 64).toNat) % 2 ^ 64)) minBlock
      unfold headerSize minBlock at *
      omega
    · have hle := le_max_left (alignUp ((headerSize + ((descs tag).size % 2 ^ 64).toNat) % 2 ^ 64)) minBlock
      have hmod : (descs tag).size % 2 ^ 64 = (descs tag).size :=
        Int.emod_eq_of_lt (by omega) (by omega)
      rw [hmod] at hle ⊢
      unfold alignUp blockAlign headerSize at *
      omega

theorem Registry.isSome_inc {reg : Registry} {descs : Nat → TypeDesc} {a : Nat} :
    (reg.inc descs tag a).isSome ↔ a = tag ∨ (reg a).isSome := by
  unfold Registry.inc
  split
  · next h => simp [h]
  · next h => simp [h]

/-- The outcome of `nm2_new_rec`: `block` is a new allocated block with descriptor `tag` and a zeroed
payload, and the reachable blocks are other blocks and stay as they are. -/
structure NewRec (descs : Nat → TypeDesc) (words : List Nat) (tag : Nat) (h h' : Heap) (block : Nat) :
    Prop where
  inv : HeapInv descs h'
  slots : h'.moduleSlots = h.moduleSlots
  live : Live h'.mem h'.clusters block
  tag_eq : tagOf h'.mem block = tag
  size_eq : blockSize h'.mem block = recSize descs tag
  payload : ∀ x, block + headerSize ≤ x → x < block + blockSize h'.mem block → h'.mem x = 0
  kept : ∀ b, Reachable descs h words b → b ≠ block ∧ Kept h.mem h'.mem h'.clusters b

/-- The block has got its header, and the other allocated blocks are those there were, as they were. -/
structure Claimed (m₀ : Mem) (cs₀ : List Cluster) (tag total : Nat) (m : Mem) (cs : List Cluster)
    (block : Nat) : Prop where
  live : Live m cs block
  tag_eq : tagOf m block = tag
  size_eq : blockSize m block = total
  only : ∀ b, Live m cs b → b ≠ block → Live m₀ cs₀ b
  kept : ∀ b, Live m₀ cs₀ b → b ≠ block ∧ Kept m₀ m cs b

theorem ValidTag.isFree_eq {descs : Nat → TypeDesc} (htag : ValidTag descs tag) : isFree tag = false := by
  unfold isFree
  rw [htag.unmarked, beq_eq_false_iff_ne]
  exact htag.ne_zero

theorem Found.claimed {descs : Nat → TypeDesc} (hinv : ClustersTiled m₀ cs₀) (htag : ValidTag descs tag)
    (hf : Found m₀ cs₀ total m cs block) : Claimed m₀ cs₀ tag total (wr m block tag) cs block := by
  have hmin := hf.clusters.tiled.min_le hf.mem
  unfold minBlock at hmin
  have hother : ∀ b, Block m cs b → b ≠ block →
      ∀ x, b ≤ x → x < b + blockSize m b → wr m block tag x = m x := by
    intro b hb hne x h1 h2
    refine wr_of_apart ?_
    have := hf.clusters.tiled.disjoint hb hf.mem hne
    omega
  have hsizes : ∀ b, Block m cs b → blockSize (wr m block tag) b = blockSize m b := by
    intro b hb
    by_cases hne : b = block
    · exact hne ▸ rd_wr_of_apart (.inr le_rfl)
    · have := hf.clusters.tiled.min_le hb
      unfold minBlock at this
      exact rd_congr fun x h1 h2 => hother b hb hne x (by omega) (by omega)
  have hblock : ∀ b, Block (wr m block tag) cs b ↔ Block m cs b :=
    fun b => hf.clusters.tiled.block_congr hsizes
  have htagself : tagOf (wr m block tag) block = tag := tagOf_wr_self htag.lt
  have htags : ∀ b, Block m cs b → b ≠ block → tagOf (wr m block tag) b = tagOf m b := by
    intro b hb hne
    have := hf.clusters.tiled.min_le hb
    unfold minBlock at this
    exact rd_congr fun x h1 h2 => hother b hb hne x h1 (by omega)
  refine {
    live := ⟨(hblock block).2 hf.mem, by rw [htagself, htag.isFree_eq]; exact Bool.false_ne_true⟩
    tag_eq := htagself
    size_eq := (rd_wr_of_apart (.inr le_rfl)).trans hf.size_eq
    only := ?_
    kept := ?_ }
  · rintro b ⟨hb, hbf⟩ hne
    rw [hblock] at hb
    rw [htags b hb hne] at hbf
    exact hf.only b ⟨hb, hbf⟩ hne
  · intro b hb
    obtain ⟨hne, hk⟩ := hf.kept b hb
    have hb' := hk.live.1
    have hsize := hk.blockSize_eq (hinv.min_le hb.1)
    refine ⟨hne, ⟨⟨(hblock b).2 hb', ?_⟩, ?_, fun x h1 h2 => ?_⟩⟩
    · rw [htags b hb' hne]
      exact hk.live.2
    · rw [htags b hb' hne, hk.tag]
    · rw [hother b hb' hne x (by omega) (by omega), hk.bytes x h1 h2]

/-- The size word is written again as it is. -/
theorem Found.finishRec_mem {descs : Nat → TypeDesc} {h' : Heap} (hf : Found m₀ cs₀ total h'.mem h'.clusters block) :
    (finishRec descs h' block tag total).mem = wr h'.mem block tag :=
  Mem.write_read_self ((rd_wr_of_apart (.inr le_rfl)).trans hf.size_eq)

theorem Found.finish {descs : Nat → TypeDesc} {h h' : Heap} {words : List Nat}
    (hinv : HeapInv descs h) (htag : ValidTag descs tag) (hf : Found h.mem h.clusters
      (recSize descs tag) h'.mem h'.clusters block)
    (hrest : h' = { h with mem := h'.mem, clusters := h'.clusters }) :
    NewRec descs words tag h (finishRec descs h' block tag (recSize descs tag)) block := by
  have hmem : (finishRec descs h' block tag (recSize descs tag)).mem = wr h'.mem block tag := hf.finishRec_mem
  obtain ⟨hlive, htagself, hsizeblock, honly, hkept⟩ := hf.claimed hinv.clusters.tiled htag
  have hzero : ∀ x, block + headerSize ≤ x → x < block + recSize descs tag →
      wr h'.mem block tag x = 0 := by
    intro x h1 h2
    unfold headerSize at h1
    rw [wr_of_apart (.inr (by omega)), hf.payload x h1 h2]
  have hregs : (finishRec descs h' block tag (recSize descs tag)).typeDescs =
      h.typeDescs.inc descs tag := by rw [hrest]; rfl
  have hslots : (finishRec descs h' block tag (recSize descs tag)).moduleSlots = h.moduleSlots := by
    rw [hrest]; rfl
  have hptr : ∀ p, PtrOk h.mem h.clusters p → PtrOk (wr h'.mem block tag) h'.clusters p := by
    rintro p (hp | ⟨b, hb, rfl⟩)
    · exact .inl hp
    · exact .inr ⟨b, (hkept b hb).2.live, rfl⟩
  have hspec := htag.recSize_spec
  have htyped : ∀ b, Live (wr h'.mem block tag) h'.clusters b →
      WellTyped (wr h'.mem block tag) (h.typeDescs.inc descs tag) descs b := by
    intro b hb
    by_cases hne : b = block
    · subst hne
      refine ⟨Registry.isSome_inc.2 (.inl ?_), ?_, ?_⟩
      · rw [htagself, htag.unmarked]
      · rw [htagself, htag.unmarked]
        exact htag.wellFormed
      · rw [htagself, htag.unmarked, hsizeblock]
        exact hspec.2.2
    · have hb₀ := honly b hb hne
      exact (hkept b hb₀).2.wellTyped (hinv.clusters.tiled.min_le hb₀.1)
        (fun a ha => Registry.isSome_inc.2 (.inr ha)) (hinv.objects.typed b hb₀)
  have hfields : ∀ b, Live (wr h'.mem block tag) h'.clusters b →
      ∀ p ∈ pointerFields (wr h'.mem block tag) descs b, PtrOk (wr h'.mem block tag) h'.clusters p := by
    intro b hb p hp
    by_cases hne : b = block
    · -- the fields of the new block are zero
      subst hne
      unfold pointerFields at hp
      obtain ⟨o, ho, rfl⟩ := List.mem_map.1 hp
      rw [htagself, htag.unmarked] at ho
      have := htag.wellFormed o ho
      have := hspec.2.2
      unfold headerSize at *
      exact .inl (Mem.read_eq_zero fun x h1 h2 => hzero x (by omega) (by omega))
    · have hb₀ := honly b hb hne
      rw [(hkept b hb₀).2.pointerFields_eq (hinv.objects.typed b hb₀)] at hp
      exact hptr p (hinv.objects.fields b hb₀ p hp)
  have hclusters := hf.clusters.claim hf.mem htag.isFree_eq htag.lt
  refine {
    inv := ⟨?_, ⟨?_, ?_⟩, ?_⟩
    slots := hslots
    live := ?_
    tag_eq := ?_
    size_eq := ?_
    payload := ?_
    kept := fun b hb => ?_ }
  · rw [hmem]
    exact hclusters
  · rw [hmem, hregs]
    exact htyped
  · rw [hmem]
    exact hfields
  · rw [hslots, hmem]
    exact fun p hp => hptr p (hinv.slots p hp)
  · rw [hmem]
    exact hlive
  · rw [hmem]
    exact htagself
  · rw [hmem]
    exact hsizeblock
  · rw [hmem, hsizeblock]
    exact hzero
  · rw [hmem]
    exact hkept b (hb.live hinv.tiled)

end found

/-! ## The allocator -/

section alloc
variable {descs : Nat → TypeDesc} {env : AllocEnv} {h h' h'' : Heap} {mutators : List Mutator}
  {words : List Nat} {threshold total block tag payload : Nat} {fins : List (Nat × Nat)}

theorem Preserves.bookkeeping (hinv : HeapInv descs h) (fins : List (Nat × Nat)) (pressure : Nat) :
    Preserves descs words h { h with pendingFinalizers := fins, pressure } :=
  ⟨⟨hinv.clusters, hinv.objects, hinv.slots⟩, .refl _, rfl,
    fun b hb => ⟨(hb.live hinv.tiled : Live h.mem h.clusters b), rfl, fun _ _ _ => rfl⟩⟩

theorem collectStw_spec {parked : Bool} {fuel : Nat} (hinv : HeapInv descs h)
    (hres : collectStw fuel descs parked h mutators = some (h', fins)) :
    Preserves descs (mutators.flatMap Mutator.rootWords) h h' := by
  unfold collectStw at hres
  split at hres
  · cases hres
    exact .refl hinv
  · split at hres
    · cases hres
    · next h₁ sum hcycle =>
      cases hres
      have hp := runCollectCycle_spec hinv hcycle
      exact hp.trans hinv (.bookkeeping hp.inv ..)

theorem relievePressure_spec (hinv : HeapInv descs h)
    (hres : relievePressure descs threshold env h mutators total = some (h', fins)) :
    Preserves descs (mutators.flatMap Mutator.rootWords) h h' := by
  unfold relievePressure at hres
  split at hres
  · have hp : Preserves descs (mutators.flatMap Mutator.rootWords) h { h with pressure := 0 } :=
      .bookkeeping hinv ..
    exact hp.trans hinv (collectStw_spec hp.inv hres)
  · cases hres
    exact .refl hinv

/-- One of the searches of `alloc_under_lock` takes a block that leaves a rest of 16 bytes. -/
def Heap.allocSliver (descs : Nat → TypeDesc) (env : AllocEnv) (h : Heap) (mutators : List Mutator)
    (total : Nat) : Bool :=
  takesSliver h.mem total h.clusters ||
    (tryAllocInClusters h.mem total h.clusters).isNone &&
      (collectStw env.fuel descs env.parked₂ h mutators).any fun r =>
        takesSliver r.1.mem total r.1.clusters

/-- One of the searches of `nm2_new_rec` takes a block that leaves a rest of 16 bytes. -/
def Heap.newRecSliver (descs : Nat → TypeDesc) (threshold : Nat) (env : AllocEnv) (h : Heap)
    (mutators : List Mutator) (tag : Nat) : Bool :=
  (relievePressure descs threshold env h mutators (recSize descs tag)).any fun r =>
    r.1.allocSliver descs env mutators (recSize descs tag)

theorem tryAllocInClusters_found {m : Mem} {cs : List Cluster} {path : AllocPath}
    (halign : blockAlign ∣ total) (hmin : minBlock ≤ total) (hinv : ClustersOk h.mem h.clusters)
    (hs : ¬ takesSliver h.mem total h.clusters)
    (hres : tryAllocInClusters h.mem total h.clusters = some (m, cs, block, path)) :
    Found h.mem h.clusters total m cs block :=
  tryAllocInClusters_spec halign hmin [] hinv hs hres

/-- The heap in which the block is found is the one at the call or the one after a collection. -/
theorem allocUnderLock_spec (halign : blockAlign ∣ total) (hmin : minBlock ≤ total)
    (hinv : HeapInv descs h) (hbase : ValidBase h.clusters env.newBase total)
    (hs : ¬ h.allocSliver descs env mutators total)
    (hres : allocUnderLock descs env h mutators total = some (h', block)) :
    ∃ h₁, Preserves descs (mutators.flatMap Mutator.rootWords) h h₁ ∧
      Found h₁.mem h₁.clusters total h'.mem h'.clusters block ∧
      h' = { h₁ with mem := h'.mem, clusters := h'.clusters } := by
  unfold Heap.allocSliver at hs
  rw [Bool.or_eq_true, Bool.and_eq_true, not_or] at hs
  unfold allocUnderLock at hres
  split at hres
  · next m cs b path hfound =>
    cases hres
    exact ⟨h, .refl hinv, tryAllocInClusters_found halign hmin hinv.clusters hs.1 hfound, rfl⟩
  next hnone =>
  split at hres
  · cases hres
  next h₁ fins hcollect =>
  have hp := collectStw_spec hinv hcollect
  have hs' : ¬ takesSliver h₁.mem total h₁.clusters := fun h' =>
    hs.2 ⟨by rw [hnone]; rfl, by rw [hcollect]; exact h'⟩
  refine ⟨h₁, hp, ?_⟩
  split at hres
  · next m cs b path hfound =>
    cases hres
    exact ⟨tryAllocInClusters_found halign hmin hp.inv.clusters hs' hfound, rfl⟩
  · exact growAlloc_spec halign hmin hp.inv.clusters (hbase.of_shape hp.shape) hres

theorem NewRec.of_preserves (hinv : HeapInv descs h) (hp : Preserves descs words h h')
    (hnew : NewRec descs words tag h' h'' block) : NewRec descs words tag h h'' block :=
  { hnew with
    slots := hnew.slots.trans hp.slots
    kept := fun b hb => by
      obtain ⟨hne, hk⟩ := hnew.kept b (hp.reachable hinv hb)
      exact ⟨hne, (hp.kept b hb).trans (hinv.clusters.tiled.min_le (hb.live hinv.tiled).1) hk⟩ }

theorem nm2NewRec_spec (hinv : HeapInv descs h) (htag : ValidTag descs tag)
    (hbase : ValidBase h.clusters env.newBase (recSize descs tag))
    (hs : ¬ h.newRecSliver descs threshold env mutators tag)
    (hres : nm2NewRec descs threshold env h mutators tag = some (h', payload)) :
    ∃ block, payload = block + headerSize ∧
      NewRec descs (mutators.flatMap Mutator.rootWords) tag h h' block := by
  unfold Heap.newRecSliver at hs
  unfold nm2NewRec at hres
  dsimp only at hres
  split at hres
  · cases hres
  next h₁ fins hrelieve =>
  split at hres
  · cases hres
  next h₂ block halloc =>
  cases hres
  rw [hrelieve] at hs
  have hp := relievePressure_spec hinv hrelieve
  obtain ⟨halign, hmin, -⟩ := htag.recSize_spec
  obtain ⟨h₃, hp', hf, hrest⟩ :=
    allocUnderLock_spec halign hmin hp.inv (hbase.of_shape hp.shape) hs halloc
  have hnew : NewRec descs (mutators.flatMap Mutator.rootWords) tag h₃ _ block :=
    hf.finish hp'.inv htag hrest
  exact ⟨block, rfl, (hnew.of_preserves hp.inv hp').of_preserves hinv hp⟩

end alloc

end NewM2.Gc
