import Mathlib
import NewM2.Gc.Run

/-! # The accounts of the heap

The registry counts the blocks of each type, and `HEAP_COUNTERS` the blocks and the bytes that have ever been
allocated and freed. `CountedRun.accounted`: while no search takes a sliver they agree with what the walk of the
clusters finds. After one that does they need not (`accounts_lost`). -/

namespace NewM2.Gc

/-! ## What the walk finds -/

/-- The blocks that `cluster_sweep` visits from an offset on. -/
def Cluster.walkFrom (m : Mem) (c : Cluster) : Nat → Nat → List Nat
  | 0, _ => []
  | fuel + 1, offset =>
    if c.bump ≤ offset then []
    else
      let block := c.base + offset
      let size := blockSize m block
      if size < minBlock ∨ c.bump < offset + size then [] else block :: c.walkFrom m fuel (offset + size)

def Cluster.walk (m : Mem) (c : Cluster) : List Nat := c.walkFrom m c.bump 0

/-- The blocks that are not free, over all clusters. -/
def usedBlocks (m : Mem) (cs : List Cluster) : List Nat :=
  (cs.flatMap (Cluster.walk m)).filter fun b => ¬ isFree (tagOf m b)

/-- The registry, the blocks and the bytes in use agree with the walk. -/
structure Accounts (m : Mem) (cs : List Cluster) (reg : Registry) (blocks bytes : Nat) : Prop where
  types : ∀ a e, reg a = some e → e.blockCount = (usedBlocks m cs).countP fun b => clearMark (tagOf m b) = a
  blocks : blocks = (usedBlocks m cs).length
  bytes : bytes = ((usedBlocks m cs).map (blockSize m)).sum

section walk
variable {m m' : Mem} {c : Cluster} {cs cs' : List Cluster} {bs : List Nat} {fuel offset b : Nat}

theorem Cluster.walkFrom_eq (hmin : ∀ b ∈ bs, minBlock ≤ blockSize m b) (hfuel : c.bump ≤ offset + fuel)
    (h : Tiled (blockSize m) (c.base + offset) (c.base + c.bump) bs) : c.walkFrom m fuel offset = bs := by
  induction fuel generalizing offset bs with
  | zero =>
    have hend : c.base + offset = c.base + c.bump := Nat.le_antisymm h.le (by omega)
    rw [hend] at h
    exact h.unique (show Tiled (blockSize m) _ _ [] from rfl) ▸ rfl
  | succ fuel ih =>
    rw [walkFrom]
    rcases bs with - | ⟨b, bs⟩
    · rw [Tiled.nil_iff] at h
      rw [if_pos (by omega)]
    · obtain ⟨rfl, hpos, h⟩ := h
      have hle := h.le
      obtain ⟨hsize, hmin⟩ := List.forall_mem_cons.1 hmin
      dsimp only
      rw [if_neg (by omega), if_neg (by omega), ih hmin (by omega) (by rwa [← Nat.add_assoc])]

theorem ClusterTiled.walk_eq (h : ClusterTiled m c bs) : c.walk m = bs :=
  c.walkFrom_eq (fun b hb => (h.sizes b hb).2) (by omega) h.tiled

theorem listsBlocks_walk (h : ClustersTiled m cs) : ListsBlocks m cs (cs.flatMap (Cluster.walk m)) := by
  induction cs with
  | nil =>
    refine ⟨List.nodup_nil, fun b => iff_of_false List.not_mem_nil ?_⟩
    rintro ⟨c, hc, -⟩
    cases hc
  | cons c cs ih =>
    obtain ⟨bs, hc⟩ := h.each c (List.mem_cons_self ..)
    rw [List.flatMap_cons, hc.walk_eq]
    exact .cons h hc (ih ⟨(List.pairwise_cons.1 h.separate).2, fun d hd => h.each d (List.mem_cons_of_mem _ hd)⟩)

theorem nodup_usedBlocks (h : ClustersTiled m cs) : (usedBlocks m cs).Nodup := (listsBlocks_walk h).1.filter _

theorem mem_usedBlocks (h : ClustersTiled m cs) : b ∈ usedBlocks m cs ↔ Live m cs b := by
  rw [usedBlocks, List.mem_filter, (listsBlocks_walk h).2, decide_eq_true_iff]
  rfl

theorem usedBlocks_perm (h : ClustersTiled m cs) {l : List Nat} (hl : l.Nodup) (hmem : ∀ b, b ∈ l ↔ Live m cs b) :
    (usedBlocks m cs).Perm l :=
  (List.perm_ext_iff_of_nodup (nodup_usedBlocks h) hl).2 fun b => (mem_usedBlocks h).trans (hmem b).symm

/-- The blocks are disjoint and lie in the address space. -/
theorem sum_blockSize_lt (h : ClustersTiled m cs) (hnd : bs.Nodup) (hmem : ∀ b ∈ bs, Block m cs b) :
    (bs.map (blockSize m)).sum < 2 ^ 64 := by
  have hcard : ((bs.toFinset.biUnion fun b => Finset.Ico b (b + blockSize m b)).card) =
      ∑ b ∈ bs.toFinset, blockSize m b := by
    rw [Finset.card_biUnion]
    · simp
    · intro a ha b hb hne
      have := h.disjoint (hmem a (List.mem_toFinset.1 ha)) (hmem b (List.mem_toFinset.1 hb)) hne
      refine Finset.disjoint_left.2 fun x hx hx' => ?_
      rw [Finset.mem_Ico] at hx hx'
      omega
  have hsub : (bs.toFinset.biUnion fun b => Finset.Ico b (b + blockSize m b)) ⊆ Finset.Ico 1 (2 ^ 64) := by
    intro x hx
    obtain ⟨b, hb, hx⟩ := Finset.mem_biUnion.1 hx
    obtain ⟨c, -, bs', hc, hb'⟩ := h.exists_cluster (hmem b (List.mem_toFinset.1 hb))
    have hrange := hc.range hb'
    have hbump := hc.bump_le
    have htop := hc.top_le
    have hbase := hc.base_pos
    rw [Finset.mem_Ico] at hx ⊢
    omega
  have hle := Finset.card_le_card hsub
  have hsum : ∑ b ∈ bs.toFinset, blockSize m b = (bs.map (blockSize m)).sum := List.sum_toFinset _ hnd
  rw [hcard, Nat.card_Ico, hsum] at hle
  omega

/-- There are fewer blocks than bytes. -/
theorem length_le_sum_blockSize (h : ClustersTiled m cs) (hmem : ∀ b ∈ bs, Block m cs b) :
    bs.length ≤ (bs.map (blockSize m)).sum := by
  have hle := List.card_nsmul_le_sum (bs.map (blockSize m)) 1 fun x hx => by
    obtain ⟨b, hb, rfl⟩ := List.mem_map.1 hx
    have hmin := h.min_le (hmem b hb)
    unfold minBlock at hmin
    omega
  simpa using hle

/-- The accounts hold of other lists of the blocks in use as well. -/
theorem accounts_iff {reg : Registry} {blocks bytes : Nat} (hperm : (usedBlocks m cs).Perm bs) :
    Accounts m cs reg blocks bytes ↔ (∀ a e, reg a = some e → e.blockCount = bs.countP fun b => clearMark (tagOf m b) = a) ∧
      blocks = bs.length ∧ bytes = (bs.map (blockSize m)).sum := by
  have htypes (a : Nat) := hperm.countP_eq fun b => clearMark (tagOf m b) = a
  have hsum := (hperm.map (blockSize m)).sum_eq
  constructor
  · rintro ⟨h₁, h₂, h₃⟩
    exact ⟨fun a e he => (h₁ a e he).trans (htypes a), h₂.trans hperm.length_eq, h₃.trans hsum⟩
  · rintro ⟨h₁, h₂, h₃⟩
    exact ⟨fun a e he => (h₁ a e he).trans (htypes a).symm, h₂.trans hperm.length_eq.symm, h₃.trans hsum.symm⟩

theorem Accounts.lt {reg : Registry} {blocks bytes : Nat} (h : ClustersTiled m cs) (ha : Accounts m cs reg blocks bytes) :
    blocks < 2 ^ 64 ∧ bytes < 2 ^ 64 := by
  have hmem : ∀ b ∈ usedBlocks m cs, Block m cs b := fun b hb => ((mem_usedBlocks h).1 hb).1
  have hlt := sum_blockSize_lt h (nodup_usedBlocks h) hmem
  have hle := length_le_sum_blockSize h hmem
  rw [ha.blocks, ha.bytes]
  exact ⟨hle.trans_lt hlt, hlt⟩

end walk

/-! ## What the operations do to the accounts -/

namespace Accounts
variable {descs : Nat → TypeDesc} {h h' : Heap} {m m' : Mem} {cs cs' : List Cluster} {reg : Registry}
  {fuel blocks bytes total tag block : Nat} {mutators : List Mutator} {sum : CollectSummary}

/-- A collection writes off what it frees. -/
theorem collect (hinv : HeapTiled descs h) (hres : runCollectCycle fuel descs h mutators = some (h', sum))
    (ha : Accounts h.mem h.clusters h.typeDescs blocks bytes) :
    ∃ blocks' bytes', blocks = blocks' + sum.blocksFreed ∧ bytes = bytes' + sum.bytesFreed ∧
      Accounts h'.mem h'.clusters h'.typeDescs blocks' bytes' := by
  obtain ⟨m₂, hm, hs, -, bs, pending, hl, -, hbooks⟩ := runCollectCycle_marked hinv hres
  rw [Books.foldl_visit] at hbooks
  have hinv₂ := hm.retag.clusters hinv.clusters
  have hinv' := hs.clustersTiled hinv₂
  have hkept := fun b hb hmark => kept_of_swept hinv hm.retag hs (b := b) hb hmark
  have hlive (b : Nat) : Live m₂ h.clusters b ↔ Live h.mem h.clusters b := hm.retag.live_iff hinv.clusters
  -- what was in use is what is in use, and the dead blocks
  have hperm : (usedBlocks h.mem h.clusters).Perm (usedBlocks h'.mem h'.clusters ++ bs.filter fun b => Dead m₂ b) := by
    refine usedBlocks_perm hinv.clusters (List.nodup_append'.2 ⟨nodup_usedBlocks hinv', hl.1.filter _, ?_⟩) fun b => ?_
    · intro b hb hdead
      rw [mem_usedBlocks hinv'] at hb
      exact (of_decide_eq_true (List.mem_filter.1 hdead).2).2 (hs.only b hb).2
    · rw [List.mem_append, mem_usedBlocks hinv', List.mem_filter, decide_eq_true_iff, hl.2, ← hlive]
      constructor
      · rintro (hb | ⟨hb, hdead⟩)
        · exact (hs.only b hb).1
        · exact ⟨hb, hdead.1⟩
      · intro hb
        by_cases hmark : isMarked (tagOf m₂ b)
        · exact .inl (hs.kept b hb hmark).1
        · exact .inr ⟨hb.1, hb.2, hmark⟩
  have hused : ∀ b ∈ usedBlocks h'.mem h'.clusters, clearMark (tagOf h.mem b) = clearMark (tagOf h'.mem b) ∧
      blockSize h.mem b = blockSize h'.mem b := by
    intro b hb
    obtain ⟨hb, hmark⟩ := hs.only b ((mem_usedBlocks hinv').1 hb)
    have hk := hkept b ((hlive b).1 hb) hmark
    exact ⟨hk.tag.symm, (hk.blockSize_eq (hinv.clusters.min_le ((hlive b).1 hb).1)).symm⟩
  have hdead : ∀ b ∈ bs.filter fun b => Dead m₂ b, clearMark (tagOf h.mem b) = clearMark (tagOf m₂ b) ∧
      blockSize h.mem b = blockSize m₂ b := by
    intro b hb
    have hblock := (hm.retag.block_iff hinv.clusters).1 ((hl.2 b).1 (List.mem_filter.1 hb).1)
    exact ⟨(hm.retag.tag b hblock).symm, (hm.retag.blockSize_eq hinv.clusters hblock).symm⟩
  obtain ⟨htypes, hblocks, hbytes⟩ := (accounts_iff hperm).1 ha
  have hfreed : sum.blocksFreed = bs.countP fun b => Dead m₂ b :=
    (congrArg Books.blocksFreed hbooks).trans (Nat.zero_add _)
  have hfreedBytes : sum.bytesFreed = ((bs.filter fun b => Dead m₂ b).map (blockSize m₂)).sum :=
    (congrArg Books.bytesFreed hbooks).trans (Nat.zero_add _)
  refine ⟨(usedBlocks h'.mem h'.clusters).length, ((usedBlocks h'.mem h'.clusters).map (blockSize h'.mem)).sum,
    ?_, ?_, ?_, rfl, rfl⟩
  · rw [hblocks, hfreed, List.length_append, List.countP_eq_length_filter]
  · have hsizes : (usedBlocks h'.mem h'.clusters).map (blockSize h.mem) =
        (usedBlocks h'.mem h'.clusters).map (blockSize h'.mem) := List.map_congr_left fun b hb => (hused b hb).2
    have hsizes₂ : (bs.filter fun b => Dead m₂ b).map (blockSize h.mem) =
        (bs.filter fun b => Dead m₂ b).map (blockSize m₂) := List.map_congr_left fun b hb => (hdead b hb).2
    rw [hbytes, hfreedBytes, List.map_append, List.sum_append, hsizes, hsizes₂]
  · intro a e' he'
    rw [show h'.typeDescs a = _ from congrFun (congrArg Books.reg hbooks) a] at he'
    obtain ⟨e, he, rfl⟩ := Option.map_eq_some_iff.1 he'
    have hcount := htypes a e he
    rw [List.countP_append] at hcount
    have hsame : (usedBlocks h'.mem h'.clusters).countP (fun b => clearMark (tagOf h.mem b) = a) =
        (usedBlocks h'.mem h'.clusters).countP fun b => clearMark (tagOf h'.mem b) = a :=
      List.countP_congr fun b hb => by rw [(hused b hb).1]
    have hgone : (bs.filter fun b => Dead m₂ b).countP (fun b => clearMark (tagOf h.mem b) = a) =
        bs.countP fun b => Dead m₂ b ∧ clearMark (tagOf m₂ b) = a := by
      rw [List.countP_congr fun b hb => by rw [(hdead b hb).1], List.countP_filter]
      refine List.countP_congr fun b _ => ?_
      simp [and_comm]
    show e.blockCount - _ = _
    rw [hcount, hsame, hgone, Nat.add_sub_cancel]

/-- An allocation enters its block. -/
theorem claim (hinv : HeapInv descs h) (htag : ValidTag descs tag)
    (hf : Found h.mem h.clusters (recSize descs tag) h'.mem h'.clusters block)
    (hrest : h' = { h with mem := h'.mem, clusters := h'.clusters })
    (ha : Accounts h.mem h.clusters h.typeDescs blocks bytes) :
    Accounts (finishRec descs h' block tag (recSize descs tag)).mem h'.clusters (h.typeDescs.inc descs tag)
      (blocks + 1) (bytes + recSize descs tag) := by
  have hinv' : ClustersTiled (finishRec descs h' block tag (recSize descs tag)).mem h'.clusters :=
    (hf.finish hinv htag hrest : NewRec descs [] tag h _ block).inv.clusters.tiled
  rw [hf.finishRec_mem] at hinv' ⊢
  have hc := hf.claimed hinv.clusters.tiled htag
  have hused : ∀ b ∈ usedBlocks h.mem h.clusters, Live h.mem h.clusters b := fun b hb =>
    (mem_usedBlocks hinv.clusters.tiled).1 hb
  have hperm : (usedBlocks (wr h'.mem block tag) h'.clusters).Perm (block :: usedBlocks h.mem h.clusters) := by
    refine usedBlocks_perm hinv' (List.nodup_cons.2 ⟨fun hb => ?_, nodup_usedBlocks hinv.clusters.tiled⟩) fun b => ?_
    · exact (hc.kept block (hused block hb)).1 rfl
    · rw [List.mem_cons, mem_usedBlocks hinv.clusters.tiled]
      constructor
      · rintro (rfl | hb)
        · exact hc.live
        · exact (hc.kept b hb).2.live
      · intro hb
        by_cases hne : b = block
        · exact .inl hne
        · exact .inr (hc.only b hb hne)
  have hsizes : (usedBlocks h.mem h.clusters).map (blockSize (wr h'.mem block tag)) =
      (usedBlocks h.mem h.clusters).map (blockSize h.mem) := List.map_congr_left fun b hb =>
    (hc.kept b (hused b hb)).2.blockSize_eq (hinv.clusters.tiled.min_le (hused b hb).1)
  have htags (a : Nat) : (usedBlocks h.mem h.clusters).countP (fun b => clearMark (tagOf (wr h'.mem block tag) b) = a) =
      (usedBlocks h.mem h.clusters).countP fun b => clearMark (tagOf h.mem b) = a :=
    List.countP_congr fun b hb => by rw [(hc.kept b (hused b hb)).2.tag]
  obtain ⟨htypes, hblocks, hbytes⟩ := ha
  refine (accounts_iff hperm).2 ⟨fun a e he => ?_, ?_, ?_⟩
  · -- the count does not saturate: there are fewer blocks than addresses
    have hlt := sum_blockSize_lt hinv' (nodup_usedBlocks hinv') fun b hb => ((mem_usedBlocks hinv').1 hb).1
    have hlen := length_le_sum_blockSize hinv' fun b hb => ((mem_usedBlocks hinv').1 hb).1
    rw [hperm.length_eq, List.length_cons] at hlen
    have hcount := List.countP_le_length (p := fun b => clearMark (tagOf h.mem b) = a) (l := usedBlocks h.mem h.clusters)
    rw [List.countP_cons, htags, hc.tag_eq, htag.unmarked]
    unfold Registry.inc at he
    by_cases htd : a = tag
    · subst htd
      rw [if_pos rfl] at he
      obtain rfl := Option.some.inj he
      have hold : ((h.typeDescs a).getD ⟨0, if a = 0 then 0 else (descs a).size⟩).blockCount =
          (usedBlocks h.mem h.clusters).countP fun b => clearMark (tagOf h.mem b) = a := by
        rcases hreg : h.typeDescs a with - | e
        · -- nothing is allocated for a type that is not registered
          refine (List.countP_eq_zero.2 fun b hb hb' => ?_).symm
          have hregistered := (hinv.objects.typed b (hused b hb)).registered
          rw [of_decide_eq_true hb', hreg] at hregistered
          cases hregistered
        · exact htypes a e hreg
      show min (_ + 1) _ = _
      rw [hold, min_eq_left (by omega)]
      simp
    · rw [if_neg htd] at he
      simpa [Ne.symm htd] using htypes a e he
  · rw [hblocks, List.length_cons]
  · rw [hbytes, List.map_cons, List.sum_cons, hsizes, hc.size_eq, Nat.add_comm]

/-- The program leaves the headers alone, and a type that it registers has no blocks. -/
theorem program {words : List Nat} (hinv : HeapInv descs h) (hp : ProgramStep descs words h h')
    (hold : ∀ a e, h.typeDescs a = some e → h'.typeDescs a = some e)
    (hnew : ∀ a e, h.typeDescs a = none → h'.typeDescs a = some e → e.blockCount = 0)
    (ha : Accounts h.mem h.clusters h.typeDescs blocks bytes) :
    Accounts h'.mem h'.clusters h'.typeDescs blocks bytes := by
  have hinv' := (hp.heapInv hinv).clusters.tiled
  have hused : ∀ b ∈ usedBlocks h.mem h.clusters, Live h.mem h.clusters b := fun b hb =>
    (mem_usedBlocks hinv.clusters.tiled).1 hb
  have hperm : (usedBlocks h'.mem h'.clusters).Perm (usedBlocks h.mem h.clusters) :=
    usedBlocks_perm hinv' (nodup_usedBlocks hinv.clusters.tiled) fun b => by
      rw [mem_usedBlocks hinv.clusters.tiled, hp.clusters, hp.live_iff hinv]
  have hsizes : (usedBlocks h.mem h.clusters).map (blockSize h'.mem) =
      (usedBlocks h.mem h.clusters).map (blockSize h.mem) :=
    List.map_congr_left fun b hb => (hp.header hinv (hused b hb).1).2
  have htags (a : Nat) : (usedBlocks h.mem h.clusters).countP (fun b => clearMark (tagOf h'.mem b) = a) =
      (usedBlocks h.mem h.clusters).countP fun b => clearMark (tagOf h.mem b) = a :=
    List.countP_congr fun b hb => by rw [(hp.header hinv (hused b hb).1).1]
  obtain ⟨htypes, hblocks, hbytes⟩ := ha
  refine (accounts_iff hperm).2 ⟨fun a e he => ?_, hblocks, by rw [hbytes, hsizes]⟩
  rw [htags]
  rcases hreg : h.typeDescs a with - | e'
  · rw [hnew a e hreg he]
    refine (List.countP_eq_zero.2 fun b hb hb' => ?_).symm
    have hregistered := (hinv.objects.typed b (hused b hb)).registered
    rw [of_decide_eq_true hb', hreg] at hregistered
    cases hregistered
  · obtain rfl := Option.some.inj ((hold a e' hreg).symm.trans he)
    exact htypes a e' hreg

end Accounts

/-! ## The counters -/

/-- `HEAP_COUNTERS`. -/
structure HeapCounters where
  allocBlocksLifetime : UInt64
  allocBytesLifetime : UInt64
  freeBlocksLifetime : UInt64
  freeBytesLifetime : UInt64
deriving Repr, DecidableEq

/-- The heap with its counters. -/
structure Counted where
  heap : Heap
  counters : HeapCounters

namespace Counted

/-- `run_collect_cycle` -/
def runCollectCycle (fuel : Nat) (descs : Nat → TypeDesc) (s : Counted) (mutators : List Mutator) :
    Option (Counted × CollectSummary) :=
  (Gc.runCollectCycle fuel descs s.heap mutators).map fun (h, sum) =>
    ({ heap := h
       counters := { s.counters with
        freeBlocksLifetime := s.counters.freeBlocksLifetime + UInt64.ofNat sum.blocksFreed
        freeBytesLifetime := s.counters.freeBytesLifetime + UInt64.ofNat sum.bytesFreed } }, sum)

/-- `collect_stw` -/
def collectStw (fuel : Nat) (descs : Nat → TypeDesc) (parked : Bool) (s : Counted) (mutators : List Mutator) :
    Option (Counted × List (Nat × Nat)) :=
  if ¬ parked then some (s, [])
  else
    match s.runCollectCycle fuel descs mutators with
    | none => none
    | some (s, _) => some ({ s with heap := { s.heap with pendingFinalizers := [], pressure := 0 } },
        s.heap.pendingFinalizers)

def allocUnderLock (descs : Nat → TypeDesc) (env : AllocEnv) (s : Counted) (mutators : List Mutator) (total : Nat) :
    Option (Counted × Nat) :=
  match tryAllocInClusters s.heap.mem total s.heap.clusters with
  | some (m, cs, block, _) => some ({ s with heap := { s.heap with mem := m, clusters := cs } }, block)
  | none =>
    match s.collectStw env.fuel descs env.parked₂ mutators with
    | none => none
    | some (s, _) =>
      match tryAllocInClusters s.heap.mem total s.heap.clusters with
      | some (m, cs, block, _) => some ({ s with heap := { s.heap with mem := m, clusters := cs } }, block)
      | none => (growAlloc s.heap env.newBase total).map fun (h, block) => ({ s with heap := h }, block)

def relievePressure (descs : Nat → TypeDesc) (threshold : Nat) (env : AllocEnv) (s : Counted)
    (mutators : List Mutator) (total : Nat) : Option (Counted × List (Nat × Nat)) :=
  if threshold ≤ min (s.heap.pressure + total) (2 ^ 64 - 1) then
    Counted.collectStw env.fuel descs env.parked₁ { s with heap := { s.heap with pressure := 0 } } mutators
  else some (s, [])

/-- `nm2_new_rec` -/
def nm2NewRec (descs : Nat → TypeDesc) (threshold : Nat) (env : AllocEnv) (s : Counted)
    (mutators : List Mutator) (tag : Nat) : Option (Counted × Nat) :=
  let total := recSize descs tag
  match s.relievePressure descs threshold env mutators total with
  | none => none
  | some (s, _) =>
    match s.allocUnderLock descs env mutators total with
    | none => none
    | some (s, block) =>
      some ({ heap := finishRec descs s.heap block tag total
              counters := { s.counters with
                allocBlocksLifetime := s.counters.allocBlocksLifetime + 1
                allocBytesLifetime := s.counters.allocBytesLifetime + UInt64.ofNat total } }, block + headerSize)

/-- The registry and the counters agree with the walk. -/
def Accounted (s : Counted) : Prop :=
  Accounts s.heap.mem s.heap.clusters s.heap.typeDescs
    (s.counters.allocBlocksLifetime - s.counters.freeBlocksLifetime).toNat
    (s.counters.allocBytesLifetime - s.counters.freeBytesLifetime).toNat

section words
variable {x y : UInt64} {k n : Nat}

theorem toNat_sub_add (h : (x - y).toNat = k + n) : (x - (y + UInt64.ofNat n)).toNat = k := by
  have hx := x.toNat_lt
  have hy := y.toNat_lt
  rw [UInt64.toNat_sub] at h ⊢
  rw [UInt64.toNat_add, UInt64.toNat_ofNat']
  omega

theorem toNat_add_sub (h : (x - y).toNat = k) (hlt : k + n < 2 ^ 64) :
    (x + UInt64.ofNat n - y).toNat = k + n := by
  have hx := x.toNat_lt
  have hy := y.toNat_lt
  rw [UInt64.toNat_sub] at h ⊢
  rw [UInt64.toNat_add, UInt64.toNat_ofNat']
  omega

end words

section operations
variable {descs : Nat → TypeDesc} {s s' : Counted} {env : AllocEnv} {mutators : List Mutator} {fins : List (Nat × Nat)}
  {sum : CollectSummary} {fuel threshold total tag block payload : Nat} {parked : Bool}

/-! The counters decide nothing: without them the operations are those of the heap. -/

/-- Forget the counters. -/
def erase {α : Type} : Counted × α → Heap × α := Prod.map Counted.heap id

theorem erase_runCollectCycle :
    (s.runCollectCycle fuel descs mutators).map erase = Gc.runCollectCycle fuel descs s.heap mutators := by
  unfold runCollectCycle
  cases Gc.runCollectCycle fuel descs s.heap mutators <;> rfl

theorem erase_collectStw :
    (s.collectStw fuel descs parked mutators).map erase = Gc.collectStw fuel descs parked s.heap mutators := by
  unfold collectStw Gc.collectStw
  by_cases hparked : parked = true
  · rw [if_neg (not_not.2 hparked), if_neg (not_not.2 hparked), ← erase_runCollectCycle]
    cases s.runCollectCycle fuel descs mutators <;> rfl
  · rw [if_pos hparked, if_pos hparked]
    rfl

theorem erase_relievePressure : (s.relievePressure descs threshold env mutators total).map erase =
    Gc.relievePressure descs threshold env s.heap mutators total := by
  unfold relievePressure Gc.relievePressure
  by_cases hpressure : threshold ≤ min (s.heap.pressure + total) (2 ^ 64 - 1)
  · rw [if_pos hpressure, if_pos hpressure]
    exact erase_collectStw
  · rw [if_neg hpressure, if_neg hpressure]
    rfl

theorem erase_allocUnderLock : (s.allocUnderLock descs env mutators total).map erase =
    Gc.allocUnderLock descs env s.heap mutators total := by
  unfold allocUnderLock Gc.allocUnderLock
  rcases tryAllocInClusters s.heap.mem total s.heap.clusters with - | r
  · rw [← erase_collectStw]
    rcases s.collectStw env.fuel descs env.parked₂ mutators with - | ⟨s₁, fins⟩
    · rfl
    · show Option.map erase (match tryAllocInClusters s₁.heap.mem total s₁.heap.clusters with
        | some (m, cs, block, _) => some ({ s₁ with heap := { s₁.heap with mem := m, clusters := cs } }, block)
        | none => (growAlloc s₁.heap env.newBase total).map fun (h, block) => ({ s₁ with heap := h }, block)) =
        match tryAllocInClusters s₁.heap.mem total s₁.heap.clusters with
        | some (m, cs, block, _) => some ({ s₁.heap with mem := m, clusters := cs }, block)
        | none => growAlloc s₁.heap env.newBase total
      rcases tryAllocInClusters s₁.heap.mem total s₁.heap.clusters with - | r
      · cases growAlloc s₁.heap env.newBase total <;> rfl
      · rfl
  · rfl

theorem erase_nm2NewRec : (s.nm2NewRec descs threshold env mutators tag).map erase =
    Gc.nm2NewRec descs threshold env s.heap mutators tag := by
  unfold nm2NewRec Gc.nm2NewRec
  dsimp only
  rw [← erase_relievePressure]
  rcases s.relievePressure descs threshold env mutators (recSize descs tag) with - | ⟨s₁, fins⟩
  · rfl
  · simp only [Option.map_some, erase, Prod.map, id_eq]
    rw [← erase_allocUnderLock]
    cases s₁.allocUnderLock descs env mutators (recSize descs tag) <;> rfl

theorem heap_of_erase {α : Type} {o : Option (Counted × α)} {o' : Option (Heap × α)} {a : α} (h : o.map erase = o')
    (hres : o = some (s', a)) : o' = some (s'.heap, a) := by
  rw [← h, hres]
  rfl

/-! Each of them keeps the accounts. -/

theorem Accounted.runCollectCycle (ha : s.Accounted) (hinv : HeapTiled descs s.heap)
    (hres : s.runCollectCycle fuel descs mutators = some (s', sum)) : s'.Accounted := by
  obtain ⟨⟨h, sum⟩, hr, heq⟩ := Option.map_eq_some_iff.1 hres
  cases heq
  obtain ⟨blocks, bytes, hblocks, hbytes, ha⟩ := Accounts.collect hinv hr ha
  unfold Accounted
  dsimp only
  rwa [toNat_sub_add hblocks, toNat_sub_add hbytes]

theorem Accounted.collectStw (ha : s.Accounted) (hinv : HeapInv descs s.heap)
    (hres : s.collectStw fuel descs parked mutators = some (s', fins)) : s'.Accounted := by
  unfold Counted.collectStw at hres
  by_cases hparked : parked = true
  · rw [if_neg (not_not.2 hparked)] at hres
    split at hres
    · cases hres
    · next s₁ sum hcycle =>
      cases hres
      have ha₁ : s₁.Accounted := ha.runCollectCycle hinv.tiled hcycle
      exact ha₁
  · rw [if_pos hparked] at hres
    cases hres
    exact ha

theorem Accounted.relievePressure (ha : s.Accounted) (hinv : HeapInv descs s.heap)
    (hres : s.relievePressure descs threshold env mutators total = some (s', fins)) : s'.Accounted := by
  unfold Counted.relievePressure at hres
  split_ifs at hres
  · have hp : Preserves descs [] s.heap { s.heap with pressure := 0 } := .bookkeeping hinv ..
    exact Accounted.collectStw (s := { s with heap := { s.heap with pressure := 0 } }) ha hp.inv hres
  · cases hres
    exact ha

/-- The heap in which the block is found is the one at the call or the one after a collection. -/
theorem Accounted.allocUnderLock (halign : blockAlign ∣ total) (hmin : minBlock ≤ total) (hinv : HeapInv descs s.heap)
    (hbase : ValidBase s.heap.clusters env.newBase total) (hs : ¬ s.heap.allocSliver descs env mutators total)
    (ha : s.Accounted) (hres : s.allocUnderLock descs env mutators total = some (s', block)) :
    ∃ s₁ : Counted, HeapInv descs s₁.heap ∧ s₁.Accounted ∧ s'.counters = s₁.counters ∧
      Found s₁.heap.mem s₁.heap.clusters total s'.heap.mem s'.heap.clusters block ∧
      s'.heap = { s₁.heap with mem := s'.heap.mem, clusters := s'.heap.clusters } := by
  unfold Heap.allocSliver at hs
  rw [Bool.or_eq_true, Bool.and_eq_true, not_or] at hs
  unfold Counted.allocUnderLock at hres
  split at hres
  · next m cs b path hfound =>
    cases hres
    exact ⟨s, hinv, ha, rfl, tryAllocInClusters_found halign hmin hinv.clusters hs.1 hfound, rfl⟩
  next hnone =>
  split at hres
  · cases hres
  next s₁ fins hcollect =>
  have hcollect' := heap_of_erase erase_collectStw hcollect
  have hp := collectStw_spec hinv hcollect'
  have ha₁ := ha.collectStw hinv hcollect
  have hs' : ¬ takesSliver s₁.heap.mem total s₁.heap.clusters := fun h' =>
    hs.2 ⟨by rw [hnone]; rfl, by rw [hcollect']; exact h'⟩
  split at hres
  · next m cs b path hfound =>
    cases hres
    exact ⟨s₁, hp.inv, ha₁, rfl, tryAllocInClusters_found halign hmin hp.inv.clusters hs' hfound, rfl⟩
  · obtain ⟨⟨h, b⟩, hr, heq⟩ := Option.map_eq_some_iff.1 hres
    cases heq
    obtain ⟨hf, hrest⟩ := growAlloc_spec halign hmin hp.inv.clusters (hbase.of_shape hp.shape) hr
    exact ⟨s₁, hp.inv, ha₁, rfl, hf, hrest⟩

theorem Accounted.nm2NewRec (hinv : HeapInv descs s.heap) (htag : ValidTag descs tag)
    (hbase : ValidBase s.heap.clusters env.newBase (recSize descs tag))
    (hs : ¬ s.heap.newRecSliver descs threshold env mutators tag) (ha : s.Accounted)
    (hres : s.nm2NewRec descs threshold env mutators tag = some (s', payload)) : s'.Accounted := by
  unfold Heap.newRecSliver at hs
  unfold Counted.nm2NewRec at hres
  dsimp only at hres
  split at hres
  · cases hres
  next s₁ fins hrelieve =>
  split at hres
  · cases hres
  next s₂ block halloc =>
  cases hres
  have hrelieve' := heap_of_erase erase_relievePressure hrelieve
  rw [hrelieve'] at hs
  have hp := relievePressure_spec hinv hrelieve'
  obtain ⟨halign, hmin, -⟩ := htag.recSize_spec
  obtain ⟨s₃, hinv₃, ha₃, hcounters, hf, hrest⟩ := Accounted.allocUnderLock halign hmin hp.inv
    (hbase.of_shape hp.shape) hs (ha.relievePressure hinv hrelieve) halloc
  have hclaim := Accounts.claim hinv₃ htag hf hrest ha₃
  have htiled : ClustersTiled (finishRec descs s₂.heap block tag (recSize descs tag)).mem s₂.heap.clusters :=
    (hf.finish hinv₃ htag hrest : NewRec descs [] tag s₃.heap _ block).inv.clusters.tiled
  have hlt := hclaim.lt htiled
  have hreg : (finishRec descs s₂.heap block tag (recSize descs tag)).typeDescs = s₃.heap.typeDescs.inc descs tag := by
    rw [hrest]
    rfl
  rw [← hreg, ← toNat_add_sub rfl hlt.1, ← toNat_add_sub rfl hlt.2, ← hcounters] at hclaim
  exact hclaim

end operations

end Counted

/-! ## Runs -/

/-- Registering modules enters descriptors without blocks, and leaves the entries that are there alone. -/
structure Registers (reg reg' : Registry) : Prop where
  old : ∀ a e, reg a = some e → reg' a = some e
  new : ∀ a e, reg a = none → reg' a = some e → e.blockCount = 0

inductive CountedStep (descs : Nat → TypeDesc) (s s' : Counted) : Op → Prop
  | newRec {threshold tag payload : Nat} {env : AllocEnv} {mutators : List Mutator} :
      ValidTag descs tag → ValidBase s.heap.clusters env.newBase (recSize descs tag) →
      s.nm2NewRec descs threshold env mutators tag = some (s', payload) →
      CountedStep descs s s' (.newRec threshold env mutators tag)
  | collect {fuel : Nat} {mutators : List Mutator} {sum : CollectSummary} :
      s.runCollectCycle fuel descs mutators = some (s', sum) → CountedStep descs s s' (.collect fuel mutators)
  | program {words : List Nat} : ProgramStep descs words s.heap s'.heap →
      Registers s.heap.typeDescs s'.heap.typeDescs → s'.counters = s.counters → CountedStep descs s s' (.program words)

/-- `Run` with the counters. -/
inductive CountedRun (descs : Nat → TypeDesc) (good : Heap → Op → Prop) : Counted → Prop
  | init {s : Counted} : s.heap.clusters = [] → (∀ p ∈ s.heap.moduleSlots, p = 0) →
      (∀ a e, s.heap.typeDescs a = some e → e.blockCount = 0) → s.counters = ⟨0, 0, 0, 0⟩ → CountedRun descs good s
  | step {s s' : Counted} {op : Op} : CountedRun descs good s → good s.heap op → CountedStep descs s s' op →
      CountedRun descs good s'

section run
variable {descs : Nat → TypeDesc} {good : Heap → Op → Prop} {s s' : Counted} {h' : Heap} {op : Op}

theorem CountedStep.step (hstep : CountedStep descs s s' op) : Step descs s.heap s'.heap op := by
  cases hstep with
  | newRec htag hbase hres => exact .newRec htag hbase (Counted.heap_of_erase Counted.erase_nm2NewRec hres)
  | collect hres => exact .collect (Counted.heap_of_erase Counted.erase_runCollectCycle hres)
  | program hp => exact .program hp

theorem CountedRun.run (hrun : CountedRun descs good s) : Run descs good s.heap := by
  induction hrun with
  | init hnil hslots => exact .init hnil hslots
  | step _ hgood hstep ih => exact ih.step hgood hstep.step

theorem CountedStep.keeps_accounts (hinv : HeapInv descs s.heap) (hs : SliverFree descs s.heap op) (ha : s.Accounted)
    (hstep : CountedStep descs s s' op) : s'.Accounted := by
  cases hstep with
  | newRec htag hbase hres => exact ha.nm2NewRec hinv htag hbase hs hres
  | collect hres => exact ha.runCollectCycle hinv.tiled hres
  | program hp hreg hcounters =>
    unfold Counted.Accounted
    rw [hcounters]
    exact Accounts.program hinv hp hreg.old hreg.new ha

/-- While no search takes a sliver the registry and the counters agree with the walk. -/
theorem CountedRun.accounted (hrun : CountedRun descs (SliverFree descs) s) : s.Accounted := by
  induction hrun with
  | @init s hnil _ hcounts hcounters =>
    have hperm : (usedBlocks s.heap.mem s.heap.clusters).Perm [] := by
      rw [hnil]
      exact List.Perm.refl []
    unfold Counted.Accounted
    rw [hcounters]
    exact (accounts_iff hperm).2 ⟨hcounts, by simp, by simp⟩
  | step hrun hs hstep ih => exact hstep.keeps_accounts hrun.run.heapInv hs ih

/-! ## A run that takes a sliver -/

/-- A step of the heap is one of the heap with its counters. -/
theorem CountedStep.of_step (hstep : Step descs s.heap h' op) (hop : ∀ words, op ≠ .program words) :
    ∃ s', CountedStep descs s s' op ∧ s'.heap = h' := by
  cases hstep with
  | newRec htag hbase hres =>
    rw [← Counted.erase_nm2NewRec, Option.map_eq_some_iff] at hres
    obtain ⟨⟨s', payload⟩, hres, heq⟩ := hres
    cases heq
    exact ⟨s', .newRec htag hbase hres, rfl⟩
  | collect hres =>
    rw [← Counted.erase_runCollectCycle, Option.map_eq_some_iff] at hres
    obtain ⟨⟨s', sum⟩, hres, heq⟩ := hres
    cases heq
    exact ⟨s', .collect hres, rfl⟩
  | program => exact absurd rfl (hop _)

theorem CountedRun.of_step (hrun : CountedRun descs good s) (hgood : good s.heap op) (hstep : Step descs s.heap h' op)
    (hop : ∀ words, op ≠ .program words) : ∃ s', CountedRun descs good s' ∧ s'.heap = h' := by
  obtain ⟨s', hcounted, rfl⟩ := CountedStep.of_step hstep hop
  exact ⟨s', hrun.step hgood hcounted, rfl⟩

end run

namespace Sliver

def counted₀ : Counted := ⟨heap₀, ⟨0, 0, 0, 0⟩⟩

theorem countedRun₀ {good : Heap → Op → Prop} : CountedRun descs good counted₀ :=
  .init rfl (by decide) (fun a e he => by cases he) rfl

/-- The record with the pointer is counted, and the walk ends before it. -/
theorem computed₄ : (heap₄.typeDescs 1200).map TypeDescEntry.blockCount = some 1 ∧
    (usedBlocks heap₄.mem heap₄.clusters).countP (fun b => clearMark (tagOf heap₄.mem b) = 1200) = 0 := by
  decide +kernel

end Sliver

/-- Two blocks are in use, the first of them for the second time. -/
theorem accounted_reuse : ∃ s : Counted, s.heap = Reuse.heap₅ ∧ s.Accounted := by
  obtain ⟨s₁, hrun₁, h₁⟩ := Sliver.countedRun₀.of_step (Sliver.Computed.noSliver₀ Sliver.computed) Sliver.step₀
    (by rintro _ ⟨⟩)
  obtain ⟨s₂, hrun₂, h₂⟩ := hrun₁.of_step (h₁ ▸ Reuse.Computed.noSliver₁ Reuse.computed) (h₁ ▸ Reuse.step₁)
    (by rintro _ ⟨⟩)
  obtain ⟨s₃, hrun₃, h₃⟩ : ∃ s₃, CountedRun Sliver.descs (SliverFree Sliver.descs) s₃ ∧ s₃.heap = Reuse.heap₃ := by
    refine ⟨⟨Reuse.heap₃, s₂.counters⟩, hrun₂.step
      (show SliverFree Sliver.descs s₂.heap (.program [4160]) from Bool.false_ne_true) (.program ?_ ?_ rfl), rfl⟩
    · cases Reuse.step₂ with
      | program hp => exact h₂ ▸ hp
    · have htypes : s₂.heap.typeDescs = Reuse.heap₃.typeDescs := by
        rw [h₂]
        rfl
      exact ⟨fun a e he => htypes ▸ he, fun a e hnone he => absurd ((htypes ▸ he).symm.trans hnone) (by simp)⟩
  obtain ⟨s₄, hrun₄, h₄⟩ := hrun₃.of_step
    (show SliverFree Sliver.descs s₃.heap (.collect 50 [Sliver.mutator]) from Bool.false_ne_true) (h₃ ▸ Reuse.step₃) (by rintro _ ⟨⟩)
  obtain ⟨s₅, hrun₅, h₅⟩ := hrun₄.of_step (h₄ ▸ Reuse.Computed.noSliver₄ Reuse.computed) (h₄ ▸ Reuse.step₄)
    (by rintro _ ⟨⟩)
  exact ⟨s₅, h₅, CountedRun.accounted hrun₅⟩

theorem accounts_lost : ∃ descs s, CountedRun descs (fun _ _ => True) s ∧ ¬ s.Accounted := by
  have hrun₀ : CountedRun Sliver.descs (fun _ _ => True) Sliver.counted₀ := Sliver.countedRun₀
  obtain ⟨s₁, hrun₁, h₁⟩ := hrun₀.of_step trivial Sliver.step₀ (by rintro _ ⟨⟩)
  obtain ⟨s₂, hrun₂, h₂⟩ := hrun₁.of_step trivial (h₁ ▸ Sliver.step₁) (by rintro _ ⟨⟩)
  obtain ⟨s₃, hrun₃, h₃⟩ := hrun₂.of_step trivial (h₂ ▸ Sliver.step₂) (by rintro _ ⟨⟩)
  obtain ⟨s₄, hrun₄, h₄⟩ := hrun₃.of_step trivial (h₃ ▸ Sliver.step₃) (by rintro _ ⟨⟩)
  refine ⟨Sliver.descs, s₄, hrun₄, fun ha => ?_⟩
  obtain ⟨e, he, hcount⟩ := Option.map_eq_some_iff.1 Sliver.computed₄.1
  have htypes := ha.types 1200 e (h₄ ▸ he)
  rw [hcount, h₄, Sliver.computed₄.2] at htypes
  cases htypes

end NewM2.Gc
