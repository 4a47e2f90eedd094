import NewM2.Gc.Exact

/-! # Finalizers

`collect_stw` takes over the finalizers that the sweep has queued, lets the other threads go on and only
then calls them. A run interleaves collections, allocations, steps of the program and calls of queued
finalizers. The contract of a finalizer is that it is called once for each block that dies, before the
block is reclaimed. But the sweep has put the block into a free list before the first call: a call always
sees a reclaimed block (`Run.exists_reclaimed`), so the contract holds only of runs in which no block with
a finalizer dies (`Completes.contract`). -/

namespace NewM2.Gc.Finalizer

/-- A finalizer that a collector has taken over and still has to call: the collection it comes from, the
dead block, and the blocks that allocations have handed out since. -/
structure Call where
  id : Nat
  fin : Nat
  block : Nat
  since : List (Nat × Nat)

/-- The heap and, for each collector, the calls it still has to make. -/
structure Sys where
  heap : Heap
  cycles : Nat
  queues : List (List Call)

inductive Event
  | collected (id : Nat) (h : Heap) (words : List Nat)
  | called (c : Call) (h : Heap)

/-- The queue that a collection takes over. -/
def newCalls (id : Nat) (pending : List (Nat × Nat)) : List Call :=
  pending.map fun e => ⟨id, e.1, e.2 - headerSize, []⟩

def Call.handOut (block total : Nat) (c : Call) : Call := { c with since := (block, total) :: c.since }

inductive Op
  | collect (fuel : Nat) (mutators : List Mutator)
  | alloc (tag : Nat)
  | grow (tag base : Nat)
  | program (words : List Nat)
  | call

inductive Step (descs : Nat → TypeDesc) (s : Sys) : Op → List Event → Sys → Prop
  | collect {fuel : Nat} {mutators : List Mutator} {h' : Heap} {sum : CollectSummary} :
      runCollectCycle fuel descs s.heap mutators = some (h', sum) →
      Step descs s (.collect fuel mutators)
        [.collected s.cycles s.heap (mutators.flatMap Mutator.rootWords)]
        ⟨{ h' with pendingFinalizers := [], pressure := 0 }, s.cycles + 1,
          s.queues ++ [newCalls s.cycles h'.pendingFinalizers]⟩
  | alloc {tag block : Nat} {m : Mem} {cs : List Cluster} {path : AllocPath} : ValidTag descs tag →
      tryAllocInClusters s.heap.mem (recSize descs tag) s.heap.clusters = some (m, cs, block, path) →
      Step descs s (.alloc tag) []
        ⟨finishRec descs { s.heap with mem := m, clusters := cs } block tag (recSize descs tag), s.cycles,
          s.queues.map (List.map (Call.handOut block (recSize descs tag)))⟩
  | grow {tag base block : Nat} {h' : Heap} : ValidTag descs tag →
      ValidBase s.heap.clusters base (recSize descs tag) →
      growAlloc s.heap base (recSize descs tag) = some (h', block) →
      Step descs s (.grow tag base) []
        ⟨finishRec descs h' block tag (recSize descs tag), s.cycles,
          s.queues.map (List.map (Call.handOut block (recSize descs tag)))⟩
  | program {words : List Nat} {h' : Heap} : ProgramStep descs words s.heap h' →
      h'.pendingFinalizers = s.heap.pendingFinalizers →
      Step descs s (.program words) [] ⟨h', s.cycles, s.queues⟩
  /-- The finalizer writes what it likes. -/
  | call {c : Call} {q : List Call} {pre post : List (List Call)} {m : Mem} {statics : Nat → Nat} :
      s.queues = pre ++ (c :: q) :: post →
      Step descs s .call [.called c s.heap]
        ⟨{ s.heap with mem := m, statics }, s.cycles, pre ++ q :: post⟩

/-- Runs with their events, whose operations satisfy `good` in the state where they happen. -/
inductive Run (descs : Nat → TypeDesc) (good : Sys → Op → Prop) : Sys → List Event → Prop
  | init {s : Sys} : s.heap.clusters = [] → (∀ p ∈ s.heap.moduleSlots, p = 0) →
      s.heap.pendingFinalizers = [] → s.queues = [] → Run descs good s []
  | step {s s' : Sys} {tr evs : List Event} {op : Op} : Run descs good s tr → good s op →
      Step descs s op evs s' → Run descs good s' (tr ++ evs)

/-- A run after which no call is left to make. -/
def Completes (descs : Nat → TypeDesc) (good : Sys → Op → Prop) (tr : List Event) : Prop :=
  ∃ s, Run descs good s tr ∧ s.queues.flatten = []

/-- No allocation takes a sliver. -/
def SliverFree (descs : Nat → TypeDesc) (s : Sys) : Op → Prop
  | .alloc tag => ¬ takesSliver s.heap.mem (recSize descs tag) s.heap.clusters
  | .collect .. | .grow .. | .program .. | .call => True

/-! ## The contract -/

/-- A collection with the roots `words` finds `b` dead, and its registered descriptor has the finalizer
`fin`. -/
structure Due (descs : Nat → TypeDesc) (h : Heap) (words : List Nat) (b fin : Nat) : Prop where
  live : Live h.mem h.clusters b
  dead : ¬ Reachable descs h words b
  registered : (h.typeDescs (clearMark (tagOf h.mem b))).isSome
  finalizer : (descs (clearMark (tagOf h.mem b))).finalizer = some fin

/-- In the heap `h'` the block that died in `h` has its bytes, is not inside a block of a free list and
does not overlap an allocation made since. -/
structure Call.Intact (c : Call) (h h' : Heap) : Prop where
  payload : ∀ x, c.block + headerSize ≤ x → x < c.block + blockSize h.mem c.block → h'.mem x = h.mem x
  notFree : ¬ ∃ f, OnFreeList h'.mem h'.clusters f ∧ f ≤ c.block ∧ c.block < f + blockSize h'.mem f
  notHandedOut : ∀ a ∈ c.since, a.1 + a.2 ≤ c.block ∨ c.block + blockSize h.mem c.block ≤ a.1

/-- The call of the finalizer `fin` for the block `b` that died in the collection `id`. -/
def Event.isCall (id b fin : Nat) : Event → Bool
  | .collected .. => false
  | .called c _ => c.id == id && c.block == b && c.fin == fin

/-- For every block with a finalizer that dies in a collection, there is one call, on an intact block. -/
def Contract (descs : Nat → TypeDesc) (tr : List Event) : Prop :=
  ∀ id h words, .collected id h words ∈ tr → ∀ b fin, Due descs h words b fin →
    tr.countP (Event.isCall id b fin) = 1 ∧
      ∀ c h', .called c h' ∈ tr → c.id = id → c.block = b → c.fin = fin → c.Intact h h'

/-- No block with a finalizer dies. -/
def NoneDue (descs : Nat → TypeDesc) (tr : List Event) : Prop :=
  ∀ id h words, .collected id h words ∈ tr → ∀ b fin, ¬ Due descs h words b fin

/-! ## Dead blocks are reclaimed before the first call -/

/-- `x` is an address of a free block. -/
def InFree (m : Mem) (cs : List Cluster) (x : Nat) : Prop :=
  ∃ f, Block m cs f ∧ isFree (tagOf m f) ∧ f ≤ x ∧ x < f + blockSize m f

def Call.Reclaimed (c : Call) (h : Heap) : Prop :=
  InFree h.mem h.clusters c.block ∨ ∃ a ∈ c.since, a.1 ≤ c.block ∧ c.block < a.1 + a.2

section reclaimed
variable {descs : Nat → TypeDesc} {h h' : Heap} {m m' : Mem} {cs cs' : List Cluster} {words : List Nat}
  {reg : Registry} {c : Call} {b x f total block tag fuel : Nat}

theorem onFreeList_iff (h : ClustersOk m cs) : OnFreeList m cs f ↔ Block m cs f ∧ isFree (tagOf m f) := by
  constructor
  · rintro ⟨c, hc, fl, hfl, hmem⟩
    obtain ⟨bs, fl', hok⟩ := h.each c hc
    obtain rfl := hfl.unique hok.chain
    exact ⟨hok.block hc (hok.mem_of_free hmem), ((hok.free f).1 hmem).2.1⟩
  · rintro ⟨hb, hf⟩
    obtain ⟨c, hc, bs, fl, hok, hmem⟩ := h.exists_cluster hb
    exact ⟨c, hc, fl, hok.chain, (hok.free f).2 ⟨hmem, hf, not_false⟩⟩

/-- A reclaimed block is not intact. -/
theorem Call.Reclaimed.not_intact {h₀ : Heap} (hr : c.Reclaimed h) (hinv : HeapInv descs h)
    (hb : Live h₀.mem h₀.clusters c.block) : ¬ c.Intact h₀ h := by
  intro hi
  rcases hr with ⟨f, hf, hfree, hle, hlt⟩ | ⟨a, ha, hle, hlt⟩
  · exact hi.notFree ⟨f, (onFreeList_iff hinv.clusters).2 ⟨hf, hfree⟩, hle, hlt⟩
  · obtain ⟨⟨d, -, bs, htiled, hmem⟩, -⟩ := hb
    have hpos := (htiled.mem_range hmem).2.2
    have := hi.notHandedOut a ha
    omega

theorem mem_dueOf {e : Nat × Nat} (he : e ∈ dueOf descs reg m b) :
    e.2 = b + headerSize ∧ ¬ isFree (tagOf m b) ∧ ¬ isMarked (tagOf m b) ∧
      (reg (clearMark (tagOf m b))).isSome ∧ (descs (clearMark (tagOf m b))).finalizer = some e.1 := by
  unfold dueOf at he
  dsimp only at he
  split at he
  · next hdue =>
    obtain ⟨fin, hfin, rfl⟩ := List.mem_map.1 he
    exact ⟨rfl, hdue.1, hdue.2.1, hdue.2.2.1, Option.mem_toList.1 hfin⟩
  · cases he

/-- A collection leaves free addresses free. -/
theorem InFree.collect {mutators : List Mutator} {sum : CollectSummary} (hinv : HeapInv descs h)
    (hres : runCollectCycle fuel descs h mutators = some (h', sum)) (hx : InFree h.mem h.clusters x) :
    InFree h'.mem h'.clusters x := by
  have hinv' := (runCollectCycle_spec hinv hres).inv.clusters
  obtain ⟨m₂, hm, hs, -⟩ := runCollectCycle_marked hinv.tiled hres
  obtain ⟨f, hf, hfree, hle, hlt⟩ := hx
  have hf₂ := (hm.retag.block_iff hinv.clusters.tiled).2 hf
  obtain ⟨g, hg, hle', hend⟩ := hs.dead f hf₂ (.inl (by rwa [hm.retag.isFree_eq hf]))
  rw [hm.retag.blockSize_eq hinv.clusters.tiled hf] at hend
  obtain ⟨hg, hgfree⟩ := (onFreeList_iff hinv').1 hg
  exact ⟨g, hg, hgfree, by omega, by omega⟩

/-- What a collection queues is due, and reclaimed. -/
theorem due_of_queued {mutators : List Mutator} {sum : CollectSummary} (hinv : HeapInv descs h)
    (hpending : h.pendingFinalizers = [])
    (hres : runCollectCycle fuel descs h mutators = some (h', sum)) {id : Nat}
    (hc : c ∈ newCalls id h'.pendingFinalizers) :
    c.id = id ∧ Due descs h (mutators.flatMap Mutator.rootWords) c.block c.fin ∧
      InFree h'.mem h'.clusters c.block := by
  have hinv' := (runCollectCycle_spec hinv hres).inv.clusters
  obtain ⟨m₂, hm, hs, -, bs, pending, hl, hqueue, hbooks⟩ := runCollectCycle_marked hinv.tiled hres
  rw [Books.foldl_visit] at hbooks
  rw [hpending, List.nil_append, show pending = _ from congrArg Books.pending hbooks, List.nil_append] at hqueue
  rw [hqueue] at hc
  obtain ⟨e, he, rfl⟩ := List.mem_map.1 hc
  obtain ⟨b, hb, he⟩ := List.mem_flatMap.1 he
  obtain ⟨hblock, hfree, hmark, hreg, hfin⟩ := mem_dueOf he
  have hb₂ := (hl.2 b).1 hb
  have hb₀ := (hm.retag.block_iff hinv.clusters.tiled).1 hb₂
  have hlive : Live h.mem h.clusters b := (hm.retag.live_iff hinv.clusters.tiled).1 ⟨hb₂, hfree⟩
  rw [hm.retag.tag b hb₀] at hreg hfin
  obtain ⟨f, hf, hle, hend⟩ := hs.dead b hb₂ (.inr hmark)
  obtain ⟨hf, hffree⟩ := (onFreeList_iff hinv').1 hf
  have hmin := hinv.clusters.tiled.min_le hb₀
  rw [hm.retag.blockSize_eq hinv.clusters.tiled hb₀] at hend
  unfold minBlock at hmin
  rw [show e.2 - headerSize = b by omega]
  exact ⟨rfl, ⟨hlive, fun hr => hmark ((hm.exact b hlive).2 hr), hreg, hfin⟩,
    f, hf, hffree, hle, by show b < _; omega⟩

/-- An allocation leaves a free address free or hands it out. -/
theorem InFree.found (hinv : ClustersOk m cs) (hf : Found m cs total m' cs' block) (hx : InFree m cs x) :
    (∃ f, Block m' cs' f ∧ f ≠ block ∧ isFree (tagOf m' f) ∧ f ≤ x ∧ x < f + blockSize m' f) ∨
      block ≤ x ∧ x < block + total := by
  obtain ⟨f, hblock, hfree, hle, hlt⟩ := hx
  obtain ⟨c, hc, bs, fl, hok, hmem⟩ := hinv.exists_cluster hblock
  have hrange := hok.range hmem
  obtain ⟨c', hc', hbase, hbump⟩ := hf.used c hc
  obtain ⟨bs', fl', hok'⟩ := hf.clusters.each c' hc'
  -- the block that the address belongs to afterwards
  obtain ⟨a, ha, hale, hend⟩ := hok'.tiled.exists_tile (x := x) (by omega) (by omega)
  have hblock' : Block m' cs' a := hok'.block hc' ha
  by_cases hne : a = block
  · subst hne
    rw [hf.size_eq] at hend
    exact .inr ⟨hale, hend⟩
  by_cases hfree' : isFree (tagOf m' a)
  · exact .inl ⟨a, hblock', hne, hfree', hale, hend⟩
  · have hlive := hf.only a ⟨hblock', hfree'⟩ hne
    have hsize := (hf.kept a hlive).2.blockSize_eq (hinv.tiled.min_le hlive.1)
    have hdisjoint := hinv.tiled.disjoint hlive.1 hblock fun heq => hlive.2 (heq ▸ hfree)
    omega

/-- Writing the header of the new block does not change the others. -/
theorem InFree.finish (hinv : ClustersOk m cs)
    (hf : Found m cs (recSize descs tag) h.mem h.clusters block) (hx : InFree m cs x) :
    InFree (finishRec descs h block tag (recSize descs tag)).mem
        (finishRec descs h block tag (recSize descs tag)).clusters x ∨
      block ≤ x ∧ x < block + recSize descs tag := by
  rcases hx.found hinv hf with ⟨f, hblock, hne, hfree, hle, hlt⟩ | hx
  · refine .inl ?_
    show InFree (wr (wr h.mem block tag) (block + 8) (recSize descs tag)) h.clusters x
    have ht := hf.clusters.tiled
    have hself : wr (wr h.mem block tag) (block + 8) (recSize descs tag) = wr h.mem block tag :=
      Mem.write_read_self ((rd_wr_of_apart (.inr le_rfl)).trans hf.size_eq)
    rw [hself]
    have hother : ∀ a, Block h.mem h.clusters a → a ≠ block →
        tagOf (wr h.mem block tag) a = tagOf h.mem a ∧
          blockSize (wr h.mem block tag) a = blockSize h.mem a := by
      intro a ha hne
      have := ht.apart ha hf.mem hne
      unfold Apart minBlock at this
      obtain ⟨h1, h2, -⟩ := header_wr (m := h.mem) (v := tag) (a := block) (b := a) (by omega)
      exact ⟨h1, h2⟩
    have hblock' : Block (wr h.mem block tag) h.clusters f := by
      refine (ht.block_congr fun a ha => ?_).2 hblock
      by_cases hne : a = block
      · exact hne ▸ rd_wr_of_apart (.inr le_rfl)
      · exact (hother a ha hne).2
    obtain ⟨h1, h2⟩ := hother f hblock hne
    exact ⟨f, hblock', h1 ▸ hfree, hle, h2 ▸ hlt⟩
  · exact .inr hx

/-- The program does not write the headers. -/
theorem InFree.program (hp : ProgramStep descs words h h') (hinv : HeapInv descs h)
    (hx : InFree h.mem h.clusters x) : InFree h'.mem h'.clusters x := by
  obtain ⟨f, hblock, hfree, hle, hlt⟩ := hx
  obtain ⟨h1, h2⟩ := hp.header hinv hblock
  rw [hp.clusters]
  exact ⟨f, (hp.block_iff hinv).2 hblock, h1 ▸ hfree, hle, h2 ▸ hlt⟩

end reclaimed

/-! ## Runs -/

/-- As long as no finalizer has been called: the heap is in order, and the queued calls are due and for
reclaimed blocks. -/
structure Quiet (descs : Nat → TypeDesc) (s : Sys) (tr : List Event) : Prop where
  heap : HeapInv descs s.heap
  pending : s.heap.pendingFinalizers = []
  calls : ∀ c ∈ s.queues.flatten, ∃ h words, .collected c.id h words ∈ tr ∧
    Due descs h words c.block c.fin ∧ c.Reclaimed s.heap

section runs
variable {descs : Nat → TypeDesc} {good : Sys → Op → Prop} {s s' : Sys} {op : Op}
  {tr evs : List Event}

/-- An allocation that found `block` and wrote its header. -/
theorem Quiet.allocated {h' : Heap} {tag block : Nat} (hq : Quiet descs s tr) (htag : ValidTag descs tag)
    (hf : Found s.heap.mem s.heap.clusters (recSize descs tag) h'.mem h'.clusters block)
    (hrest : h' = { s.heap with mem := h'.mem, clusters := h'.clusters }) :
    Quiet descs ⟨finishRec descs h' block tag (recSize descs tag), s.cycles,
      s.queues.map (List.map (Call.handOut block (recSize descs tag)))⟩ tr where
  heap := by
    have hnew : NewRec descs [] tag s.heap (finishRec descs h' block tag (recSize descs tag)) block :=
      hf.finish hq.heap htag hrest
    exact hnew.inv
  pending := by
    show h'.pendingFinalizers = []
    rw [hrest]
    exact hq.pending
  calls c hc := by
    obtain ⟨q, hmem, hc⟩ := List.mem_flatten.1 hc
    obtain ⟨q, hq', rfl⟩ := List.mem_map.1 hmem
    obtain ⟨c, hmem, rfl⟩ := List.mem_map.1 hc
    obtain ⟨h, words, hev, hdue, hr⟩ := hq.calls c (List.mem_flatten.2 ⟨q, hq', hmem⟩)
    refine ⟨h, words, hev, hdue, ?_⟩
    rcases hr with hx | ⟨a, ha, hlt⟩
    · exact (hx.finish hq.heap.clusters hf).imp_right fun h =>
        ⟨_, List.mem_cons_self .., h⟩
    · exact .inr ⟨a, List.mem_cons_of_mem _ ha, hlt⟩

/-- One step other than a call. -/
theorem Quiet.step (hq : Quiet descs s tr) (hs : SliverFree descs s op)
    (hstep : Step descs s op evs s') (hcall : op ≠ .call) : Quiet descs s' (tr ++ evs) := by
  cases hstep with
  | @collect fuel mutators h' sum hres =>
    have hinv := (runCollectCycle_spec hq.heap hres).inv
    refine ⟨⟨hinv.clusters, hinv.objects, hinv.slots⟩, rfl, fun c hc => ?_⟩
    rw [List.flatten_append, List.mem_append] at hc
    rcases hc with hc | hc
    · obtain ⟨h, words, hev, hdue, hr⟩ := hq.calls c hc
      exact ⟨h, words, List.mem_append_left _ hev, hdue, hr.imp_left fun hx =>
        (hx.collect hq.heap hres : InFree h'.mem h'.clusters c.block)⟩
    · rw [List.flatten_singleton] at hc
      obtain ⟨hid, hdue, hx⟩ := due_of_queued hq.heap hq.pending hres hc
      exact ⟨s.heap, _, by rw [hid]; simp, hdue, .inl hx⟩
  | @alloc tag block m cs path htag hres =>
    rw [List.append_nil]
    obtain ⟨halign, hmin, -⟩ := htag.recSize_spec
    have hf := tryAllocInClusters_found halign hmin hq.heap.clusters hs hres
    have hf' : Found s.heap.mem s.heap.clusters (recSize descs tag)
      { s.heap with mem := m, clusters := cs }.mem { s.heap with mem := m, clusters := cs }.clusters
      block := hf
    exact hq.allocated htag hf' rfl
  | @grow tag base block h' htag hbase hres =>
    rw [List.append_nil]
    obtain ⟨halign, hmin, -⟩ := htag.recSize_spec
    obtain ⟨hf, hrest⟩ := growAlloc_spec halign hmin hq.heap.clusters hbase hres
    exact hq.allocated htag hf hrest
  | @program words h' hp hpending =>
    rw [List.append_nil]
    refine ⟨hp.heapInv hq.heap, hpending.trans hq.pending, fun c hc => ?_⟩
    obtain ⟨h, words, hev, hdue, hr⟩ := hq.calls c hc
    exact ⟨h, words, hev, hdue, hr.imp_left fun hx => hx.program hp hq.heap⟩
  | call => exact absurd rfl hcall

/-- Either no finalizer has been called, or one has been called for a reclaimed block. -/
theorem Run.exists_reclaimed (hrun : Run descs good s tr) (hgood : ∀ s op, good s op → SliverFree descs s op) :
    Quiet descs s tr ∧ (∀ id b fin, tr.countP (Event.isCall id b fin) = 0) ∨
      ∃ c h h' words, .collected c.id h words ∈ tr ∧ Due descs h words c.block c.fin ∧
        .called c h' ∈ tr ∧ ¬ c.Intact h h' := by
  induction hrun with
  | @init s hnil hslots hpending hqueues =>
    refine .inl ⟨⟨?_, hpending, fun c hc => ?_⟩, fun _ _ _ => rfl⟩
    · exact Gc.Run.heapInv (.init hnil hslots)
    · rw [hqueues] at hc
      cases hc
  | @step s s' tr evs op _ hop hstep ih =>
    rcases ih with ⟨hq, hnone⟩ | ⟨c, h, h', words, hcol, hdue, hcalled, hnot⟩
    · by_cases hcall : op = .call
      · -- the first call
        subst hcall
        cases hstep with
        | @call c q pre post m statics hqueues =>
        have hc : c ∈ s.queues.flatten := by
          rw [hqueues]
          simp
        obtain ⟨h, words, hev, hdue, hr⟩ := hq.calls c hc
        exact .inr ⟨c, h, s.heap, words, List.mem_append_left _ hev, hdue, by simp,
          hr.not_intact hq.heap hdue.live⟩
      · refine .inl ⟨hq.step (hgood _ _ hop) hstep hcall, fun id b fin => ?_⟩
        rw [List.countP_append, hnone, Nat.zero_add]
        cases hstep <;> first | rfl | exact absurd rfl hcall
    · exact .inr ⟨c, h, h', words, List.mem_append_left _ hcol, hdue, List.mem_append_left _ hcalled, hnot⟩

/-- If no block with a finalizer dies there is nothing to call. If the contract holds, no block with a
finalizer died. -/
theorem Completes.contract (hrun : Completes descs good tr) :
    (NoneDue descs tr → Contract descs tr) ∧
      ((∀ s op, good s op → SliverFree descs s op) → Contract descs tr → NoneDue descs tr) := by
  refine ⟨fun hnone id h words hev b fin hdue => absurd hdue (hnone id h words hev b fin), ?_⟩
  intro hgood hcontract id h words hev b fin hdue
  obtain ⟨s, hrun, -⟩ := hrun
  rcases hrun.exists_reclaimed hgood with ⟨-, hzero⟩ | ⟨c, h₀, h', words₀, hev₀, hdue₀, hcalled, hnot⟩
  · have hone := (hcontract id h words hev b fin hdue).1
    rw [hzero] at hone
    cases hone
  · exact hnot ((hcontract _ _ _ hev₀ _ _ hdue₀).2 c h' hcalled rfl rfl rfl)

end runs

/-! ## A record with a finalizer dies -/

namespace Single

def descs (td : Nat) : TypeDesc := if td = 1024 then ⟨16, some 7, [-1]⟩ else ⟨0, none, [-1]⟩

def heap₀ : Heap := ⟨fun _ => 0, [], [], fun _ => 0, fun _ => none, [], 0⟩
def grown : Heap × Nat := (growAlloc heap₀ 4096 (recSize descs 1024)).getD (heap₀, 0)
def heap₁ : Heap := finishRec descs grown.1 grown.2 1024 (recSize descs 1024)
def collected : Heap × CollectSummary := (runCollectCycle 50 descs heap₁ []).getD (heap₁, {})
def heap₂ : Heap := { collected.1 with pendingFinalizers := [], pressure := 0 }

def trace : List Event := [.collected 0 heap₁ [], .called ⟨0, 7, 4096, []⟩ heap₂]

/-- What the calls of the run compute. -/
theorem computed : (growAlloc heap₀ 4096 (recSize descs 1024)).isSome ∧
    (runCollectCycle 50 descs heap₁ []).isSome ∧ collected.1.pendingFinalizers = [(7, 4112)] := by
  decide +kernel

theorem validTag : ValidTag descs 1024 := by
  have hdec : ∀ o ∈ (descs 1024).pointerOffsets, 0 ≤ o ∧ o + 8 ≤ (descs 1024).size := by decide
  exact ⟨by decide, by decide, by decide, hdec, by decide⟩

theorem sliverFree_run {good : Sys → Op → Prop} (hgood : ∀ s op, SliverFree descs s op → good s op) :
    ∃ s, Run descs good s trace ∧ s.queues.flatten = [] := by
  obtain ⟨hgrow, hcollect, hpending⟩ := computed
  have h₀ : Run descs good ⟨heap₀, 0, []⟩ [] := .init rfl (fun p hp => by cases hp) rfl rfl
  have hbase : ValidBase heap₀.clusters 4096 (recSize descs 1024) :=
    ⟨by decide, by decide, by decide, fun c hc => by cases hc⟩
  have hgrown : growAlloc heap₀ 4096 (recSize descs 1024) = some (grown.1, grown.2) :=
    @Sliver.eq_some_getD _ _ (heap₀, 0) hgrow
  have hcollected : runCollectCycle 50 descs heap₁ [] = some (collected.1, collected.2) :=
    @Sliver.eq_some_getD _ _ (heap₁, {}) hcollect
  have h₁ : Run descs good ⟨heap₁, 0, []⟩ ([] ++ []) :=
    h₀.step (hgood _ (.grow 1024 4096) trivial) (.grow validTag hbase hgrown)
  have h₂ : Run descs good ⟨heap₂, 1, [newCalls 0 collected.1.pendingFinalizers]⟩
      (([] ++ []) ++ [.collected 0 heap₁ []]) :=
    h₁.step (hgood _ (.collect 50 []) trivial) (.collect hcollected)
  rw [hpending] at h₂
  have hcall : Step descs ⟨heap₂, 1, [newCalls 0 [(7, 4112)]]⟩ .call
      [.called ⟨0, 7, 4096, []⟩ heap₂] ⟨heap₂, 1, [[]]⟩ :=
    @Step.call descs _ ⟨0, 7, 4096, []⟩ [] [] [] heap₂.mem heap₂.statics rfl
  exact ⟨_, h₂.step (hgood _ .call trivial) hcall, rfl⟩

end Single

theorem contract_single :
    (NoneDue Single.descs Single.trace → Contract Single.descs Single.trace) ∧
      ((∀ s op, SliverFree Single.descs s op → SliverFree Single.descs s op) →
        Contract Single.descs Single.trace → NoneDue Single.descs Single.trace) :=
  Completes.contract (Single.sliverFree_run fun _ _ h => h)

/-- A record with a finalizer dies in a collection without roots. When its finalizer is called it is on
the free list. -/
theorem not_contract_single : ∃ descs tr, Completes descs (fun _ _ => True) tr ∧ ¬ Contract descs tr := by
  refine ⟨Single.descs, Single.trace, Single.sliverFree_run fun _ _ _ => trivial, fun hcontract => ?_⟩
  obtain ⟨s, hrun, -⟩ : ∃ s, Run Single.descs (SliverFree Single.descs) s Single.trace ∧
      s.queues.flatten = [] := Single.sliverFree_run fun _ _ h => h
  rcases hrun.exists_reclaimed fun _ _ h => h with ⟨-, hzero⟩ | ⟨c, h, h', words, hev, hdue, hcalled, hnot⟩
  · exact absurd (hzero 0 4096 7) (by decide)
  · exact hnot ((hcontract _ _ _ hev _ _ hdue).2 c h' hcalled rfl rfl rfl)

end NewM2.Gc.Finalizer
