import NewM2.Gc.NewRec

/-! # Runs

A run interleaves allocations, collections and steps of the program, in any order and with any roots.
While no search takes a free block that is 16 bytes larger than the allocation (`Op.takesSliver`), every
state satisfies the heap invariant (`Run.heapInv`): the clusters are tiled (`Run.tiledExactly`) and an
allocation returns zeroed memory of its own (`Run.safe`). One such block is enough to lose both
(`tiling_lost`, `reachable_block_reused`). -/

namespace NewM2.Gc

/-- A step of the program that holds `words` in its registers and on its stacks: it writes payloads of
blocks that it reaches, its pointer fields and the module variables hold null or payload starts of
such blocks, and it may register modules and descriptors. -/
structure ProgramStep (descs : Nat → TypeDesc) (words : List Nat) (h h' : Heap) : Prop where
  clusters : h'.clusters = h.clusters
  registered : ∀ a, (h.typeDescs a).isSome → (h'.typeDescs a).isSome
  frame : ∀ x, (∀ b, Reachable descs h words b → x < b + headerSize ∨ b + blockSize h.mem b ≤ x) →
    h'.mem x = h.mem x
  fields : ∀ b, Reachable descs h words b → ∀ p ∈ pointerFields h'.mem descs b,
    p = 0 ∨ ∃ d, Reachable descs h words d ∧ p = d + headerSize
  slots : ∀ p ∈ h'.moduleSlots, p = 0 ∨ ∃ d, Reachable descs h words d ∧ p = d + headerSize

inductive Op
  | newRec (threshold : Nat) (env : AllocEnv) (mutators : List Mutator) (tag : Nat)
  | collect (fuel : Nat) (mutators : List Mutator)
  | program (words : List Nat)

/-- First fit takes a free block that is 16 bytes larger than the allocation. -/
def Op.takesSliver (descs : Nat → TypeDesc) (h : Heap) : Op → Bool
  | .newRec threshold env mutators tag => h.newRecSliver descs threshold env mutators tag
  | .collect .. | .program .. => false

inductive Step (descs : Nat → TypeDesc) (h h' : Heap) : Op → Prop
  | newRec {threshold tag payload : Nat} {env : AllocEnv} {mutators : List Mutator} :
      ValidTag descs tag → ValidBase h.clusters env.newBase (recSize descs tag) →
      nm2NewRec descs threshold env h mutators tag = some (h', payload) →
      Step descs h h' (.newRec threshold env mutators tag)
  | collect {fuel : Nat} {mutators : List Mutator} {sum : CollectSummary} :
      runCollectCycle fuel descs h mutators = some (h', sum) → Step descs h h' (.collect fuel mutators)
  | program {words : List Nat} : ProgramStep descs words h h' → Step descs h h' (.program words)

/-- The states of runs whose operations satisfy `good` in the state where they happen. -/
inductive Run (descs : Nat → TypeDesc) (good : Heap → Op → Prop) : Heap → Prop
  | init {h : Heap} : h.clusters = [] → (∀ p ∈ h.moduleSlots, p = 0) → Run descs good h
  | step {h h' : Heap} {op : Op} : Run descs good h → good h op → Step descs h h' op →
      Run descs good h'

/-- No operation takes a sliver. -/
abbrev SliverFree (descs : Nat → TypeDesc) (h : Heap) (op : Op) : Prop := ¬ op.takesSliver descs h

section run
variable {descs : Nat → TypeDesc} {h h' : Heap} {words : List Nat} {op : Op} {b : Nat}

/-! ## Steps of the program -/

namespace ProgramStep

/-- The program does not write headers. -/
theorem header (hp : ProgramStep descs words h h') (hinv : HeapInv descs h)
    (hb : Block h.mem h.clusters b) :
    tagOf h'.mem b = tagOf h.mem b ∧ blockSize h'.mem b = blockSize h.mem b := by
  have hmin := hinv.clusters.tiled.min_le hb
  unfold minBlock at hmin
  have hsame : ∀ x, b ≤ x → x < b + headerSize → h'.mem x = h.mem x := by
    intro x h1 h2
    refine hp.frame x fun a ha => ?_
    unfold headerSize at *
    by_cases hne : a = b
    · subst hne
      exact .inl h2
    · have := hinv.clusters.tiled.disjoint (ha.live hinv.tiled).1 hb hne
      omega
  unfold headerSize at hsame
  exact ⟨rd_congr fun x h1 h2 => hsame x h1 (by omega), rd_congr fun x h1 h2 => hsame x (by omega) (by omega)⟩

/-- The program does not write blocks that it does not reach. -/
theorem unreached (hp : ProgramStep descs words h h') (hinv : HeapInv descs h)
    (hb : Block h.mem h.clusters b) (hno : ¬ Reachable descs h words b) :
    ∀ x, b ≤ x → x < b + blockSize h.mem b → h'.mem x = h.mem x := by
  intro x h1 h2
  refine hp.frame x fun a ha => ?_
  have hne : a ≠ b := by
    rintro rfl
    exact hno ha
  have := hinv.clusters.tiled.disjoint (ha.live hinv.tiled).1 hb hne
  omega

theorem block_iff (hp : ProgramStep descs words h h') (hinv : HeapInv descs h) :
    Block h'.mem h.clusters b ↔ Block h.mem h.clusters b :=
  hinv.clusters.tiled.block_congr fun _ hb => (hp.header hinv hb).2

theorem live_iff (hp : ProgramStep descs words h h') (hinv : HeapInv descs h) :
    Live h'.mem h.clusters b ↔ Live h.mem h.clusters b := by
  unfold Live
  rw [hp.block_iff hinv]
  exact and_congr_right fun hb => by rw [(hp.header hinv hb).1]

theorem clustersOk (hp : ProgramStep descs words h h') (hinv : HeapInv descs h) :
    ClustersOk h'.mem h.clusters := by
  refine ⟨hinv.clusters.separate, fun c hc => ?_⟩
  obtain ⟨bs, fl, hok⟩ := hinv.clusters.each c hc
  have hblock : ∀ b ∈ bs, Block h.mem h.clusters b := fun b hb =>
    hok.block hc hb
  refine ⟨bs, fl, hok.congr (fun b hb => (hp.header hinv (hblock b hb)).2)
    (fun b hb _ => by rw [(hp.header hinv (hblock b hb)).1]) (fun b hb => ?_) fun x h1 h2 => ?_⟩
  · -- a free block is not reached
    obtain ⟨hb, hfree, -⟩ := (hok.free b).1 hb
    have hmin := (hok.range hb).2.2
    have hsame := hp.unreached hinv (hblock b hb) fun hr => (hr.live hinv.tiled).2 hfree
    unfold minBlock at hmin
    exact rd_congr fun x h1 h2 => hsame x (by omega) (by unfold headerSize at h2; omega)
  · refine hp.frame x fun a ha => ?_
    obtain ⟨d, hd, bs', fl', hok', hmem⟩ := hinv.clusters.exists_cluster (ha.live hinv.tiled).1
    have hr := hok'.range hmem
    have := hok'.bump_le
    unfold minBlock at hr
    by_cases hcd : d = c
    · subst hcd
      omega
    · rcases hinv.clusters.tiled.separate_of_ne hd hc hcd with h' | h' <;> omega

theorem heapInv (hp : ProgramStep descs words h h') (hinv : HeapInv descs h) : HeapInv descs h' := by
  have hclusters := hp.clustersOk hinv
  have hlive : ∀ b, Live h'.mem h'.clusters b ↔ Live h.mem h.clusters b := fun b => by
    rw [hp.clusters, hp.live_iff hinv]
  have hptr : ∀ p, (p = 0 ∨ ∃ d, Reachable descs h words d ∧ p = d + headerSize) →
      PtrOk h'.mem h'.clusters p := by
    rintro p (hp0 | ⟨d, hd, rfl⟩)
    · exact .inl hp0
    · exact .inr ⟨d, (hlive d).2 (hd.live hinv.tiled), rfl⟩
  refine ⟨hp.clusters ▸ hclusters, ⟨fun b hb => ?_, fun b hb p hmem => ?_⟩, fun p hmem =>
    hptr p (hp.slots p hmem)⟩
  · rw [hlive] at hb
    obtain ⟨htag, hsize⟩ := hp.header hinv hb.1
    obtain ⟨h1, h2, h3⟩ := hinv.objects.typed b hb
    rw [← htag] at h1 h2 h3
    exact ⟨hp.registered _ h1, h2, by rwa [hsize]⟩
  · rw [hlive] at hb
    by_cases hr : Reachable descs h words b
    · exact hptr p (hp.fields b hr p hmem)
    · have ht := hinv.objects.typed b hb
      have hsame := hp.unreached hinv hb.1 hr
      have hkept : Kept h.mem h'.mem h'.clusters b :=
        ⟨(hlive b).2 hb, by rw [(hp.header hinv hb.1).1], fun x h1 h2 => hsame x (by omega) h2⟩
      rw [hkept.pointerFields_eq ht] at hmem
      rcases hinv.objects.fields b hb p hmem with hp0 | ⟨d, hd, rfl⟩
      · exact .inl hp0
      · exact .inr ⟨d, (hlive d).2 hd, rfl⟩

end ProgramStep

/-! ## Every state of a run -/

theorem Step.heapInv (hinv : HeapInv descs h) (hs : SliverFree descs h op)
    (hstep : Step descs h h' op) : HeapInv descs h' := by
  cases hstep with
  | newRec htag hbase hres =>
    obtain ⟨block, -, hnew⟩ := nm2NewRec_spec hinv htag hbase hs hres
    exact hnew.inv
  | collect hres => exact (runCollectCycle_spec hinv hres).inv
  | program hp => exact hp.heapInv hinv

theorem Run.heapInv (hrun : Run descs (SliverFree descs) h) : HeapInv descs h := by
  induction hrun with
  | @init h hnil hslots =>
    have hno : ∀ b, ¬ Live h.mem h.clusters b := by
      rintro b ⟨⟨c, hc, -⟩, -⟩
      rw [hnil] at hc
      cases hc
    refine ⟨⟨hnil ▸ List.Pairwise.nil, fun c hc => ?_⟩, ⟨fun b hb => absurd hb (hno b),
      fun b hb => absurd hb (hno b)⟩, fun p hp => .inl (hslots p hp)⟩
    rw [hnil] at hc
    cases hc
  | step _ hs hstep ih => exact hstep.heapInv ih hs

end run

/-! ## A run that takes a sliver

A block of 48 bytes is freed and 32 bytes are allocated. -/

namespace Sliver

def descs (td : Nat) : TypeDesc :=
  if td = 1024 then ⟨32, none, [-1]⟩
  else if td = 1104 then ⟨16, none, [-1]⟩
  else if td = 1200 then ⟨16, none, [0, -1]⟩
  else ⟨2 ^ 20 - 16, none, [-1]⟩

def threshold : Nat := 2 ^ 19

def env (newBase : Nat) : AllocEnv := ⟨true, true, newBase, 50⟩

def newRec (h : Heap) (newBase : Nat) (mutators : List Mutator) (tag : Nat) : Heap × Nat :=
  (nm2NewRec descs threshold (env newBase) h mutators tag).getD (h, 0)

def collect (h : Heap) : Heap × CollectSummary := (runCollectCycle 50 descs h []).getD (h, {})

def store (h : Heap) (a v : Nat) : Heap := { h with mem := wr h.mem a v }

def heap₀ : Heap := ⟨fun _ => 0, [], [], fun _ => 0, fun _ => none, [], 0⟩
def heap₁ : Heap := (newRec heap₀ 4096 [] 1024).1
def heap₂ : Heap := (collect heap₁).1
def heap₃ : Heap := (newRec heap₂ (2 ^ 22) [] 1104).1

/-- A record with a pointer, at 4160. -/
def heap₄ : Heap := (newRec heap₃ (2 ^ 22) [] 1200).1

/-- The stack holds the address of that record. -/
def mutator : Mutator := ⟨8, 16, fun _ => 4160, []⟩

/-- A large record in a cluster of its own. -/
def heap₅ : Heap := (newRec heap₄ (2 ^ 24) [mutator] 1296).1

/-- The pointer is set to the large record. -/
def heap₆ : Heap := store heap₅ 4160 (2 ^ 24 + headerSize)

def heap₇ : Heap := (newRec heap₆ (2 ^ 25) [mutator] 1296).1

theorem eq_some_getD {α : Type} {o : Option α} {d : α} (h : o.isSome) : o = some (o.getD d) := by
  obtain ⟨a, rfl⟩ := Option.isSome_iff_exists.1 h
  rfl

theorem newRec_eq {h : Heap} {newBase tag : Nat} {mutators : List Mutator}
    (hsome : (nm2NewRec descs threshold (env newBase) h mutators tag).isSome) :
    nm2NewRec descs threshold (env newBase) h mutators tag =
      some ((newRec h newBase mutators tag).1, (newRec h newBase mutators tag).2) := eq_some_getD hsome

theorem validTag {tag : Nat} (htag : tag ∈ [1024, 1104, 1200, 1296]) : ValidTag descs tag := by
  have hdec : ∀ tag ∈ [1024, 1104, 1200, 1296], tag < 2 ^ 64 ∧ clearMark tag = tag ∧ tag ≠ 0 ∧
      (∀ o ∈ (descs tag).pointerOffsets, 0 ≤ o ∧ o + 8 ≤ (descs tag).size) ∧
      (-2 ^ 63 ≤ (descs tag).size ∧ (descs tag).size < 2 ^ 63) := by decide
  obtain ⟨h1, h2, h3, h4, h5⟩ := hdec tag htag
  exact ⟨h1, h2, h3, h4, h5⟩

theorem step_newRec {h : Heap} {newBase tag : Nat} {mutators : List Mutator}
    (htag : tag ∈ [1024, 1104, 1200, 1296]) (hbase : ValidBase h.clusters newBase (recSize descs tag))
    (hsome : (nm2NewRec descs threshold (env newBase) h mutators tag).isSome) :
    Step descs h (newRec h newBase mutators tag).1 (.newRec threshold (env newBase) mutators tag) :=
  .newRec (validTag htag) hbase (newRec_eq hsome)

/-- What the calls of the run compute. -/
@[mk_iff] structure Computed : Prop where
  some₀ : (nm2NewRec descs threshold (env 4096) heap₀ [] 1024).isSome
  some₁ : (runCollectCycle 50 descs heap₁ []).isSome
  some₂ : (nm2NewRec descs threshold (env (2 ^ 22)) heap₂ [] 1104).isSome
  some₃ : (nm2NewRec descs threshold (env (2 ^ 22)) heap₃ [] 1200).isSome
  some₄ : (nm2NewRec descs threshold (env (2 ^ 24)) heap₄ [mutator] 1296).isSome
  some₆ : (nm2NewRec descs threshold (env (2 ^ 25)) heap₆ [mutator] 1296).isSome
  separate₂ : ∀ c ∈ heap₂.clusters, c.Separate (Cluster.new (2 ^ 22) (recSize descs 1104))
  separate₃ : ∀ c ∈ heap₃.clusters, c.Separate (Cluster.new (2 ^ 22) (recSize descs 1200))
  separate₄ : ∀ c ∈ heap₄.clusters, c.Separate (Cluster.new (2 ^ 24) (recSize descs 1296))
  separate₆ : ∀ c ∈ heap₆.clusters, c.Separate (Cluster.new (2 ^ 25) (recSize descs 1296))
  slots₅ : heap₅.moduleSlots = []
  record₅ : resolveHeapPtr heap₅.mem heap₅.clusters 4160 = some 4160
  large₅ : resolveHeapPtr heap₅.mem heap₅.clusters 16777232 = some 16777232
  fields₅ : ∀ b ∈ [4144, 16777216], ∀ p ∈ pointerFields heap₅.mem descs b, p = 0
  room₅ : 4160 + 8 ≤ 4144 + blockSize heap₅.mem 4144
  fields₆ : ∀ b ∈ [4144, 16777216], ∀ p ∈ pointerFields
    (wr heap₅.mem 4160 (2 ^ 24 + headerSize)) descs b, p = 16777216 + headerSize
  pointer₆ : 16777232 ∈ pointerFields heap₆.mem descs 4144
  record₆ : resolveHeapPtr heap₆.mem heap₆.clusters 4160 = some 4160
  payload₇ : (newRec heap₆ (2 ^ 25) [mutator] 1296).2 = 16777232
  size₇ : headerSize < blockSize heap₇.mem 16777216
  noSliver₀ : SliverFree descs heap₀ (.newRec threshold (env 4096) [] 1024)
  cluster₃ : ∃ c ∈ heap₃.clusters, c.base = 4096 ∧ c.bump = 48
  header₃ : blockSize heap₃.mem 4096 = 32 ∧ blockSize heap₃.mem 4128 = 0

theorem computed : Computed := by
  -- in one evaluation, so that each heap is computed once
  rw [computed_iff]
  decide +kernel

theorem step₀ : Step descs heap₀ heap₁ (.newRec threshold (env 4096) [] 1024) :=
  step_newRec (by decide) ⟨by decide, by decide, by decide, fun c hc => by cases hc⟩
    (Computed.some₀ computed)

theorem step₁ : Step descs heap₁ heap₂ (.collect 50 []) :=
  .collect (eq_some_getD (o := runCollectCycle 50 descs heap₁ []) (d := (heap₁, {}))
    (Computed.some₁ computed))

theorem step₂ : Step descs heap₂ heap₃ (.newRec threshold (env (2 ^ 22)) [] 1104) :=
  step_newRec (by decide) ⟨by decide, by decide, by decide, Computed.separate₂ computed⟩
    (Computed.some₂ computed)

theorem step₃ : Step descs heap₃ heap₄ (.newRec threshold (env (2 ^ 22)) [] 1200) :=
  step_newRec (by decide) ⟨by decide, by decide, by decide, Computed.separate₃ computed⟩
    (Computed.some₃ computed)

theorem step₄ : Step descs heap₄ heap₅ (.newRec threshold (env (2 ^ 24)) [mutator] 1296) :=
  step_newRec (by decide) ⟨by decide, by decide, by decide, Computed.separate₄ computed⟩
    (Computed.some₄ computed)

/-- The two records are all that the program reaches. -/
theorem reachable_iff {b : Nat} :
    Reachable descs heap₅ [4160, 16777232] b ↔ b = 4144 ∨ b = 16777216 := by
  constructor
  · intro hb
    induction hb with
    | @word w p hw hres =>
      rcases List.mem_pair.1 hw with rfl | rfl
      · obtain rfl := Option.some.inj ((Computed.record₅ computed).symm.trans hres)
        exact .inl rfl
      · obtain rfl := Option.some.inj ((Computed.large₅ computed).symm.trans hres)
        exact .inr rfl
    | @slot p hp hp0 =>
      rw [Computed.slots₅ computed] at hp
      cases hp
    | @field b p _ hp hp0 ih =>
      exact absurd (Computed.fields₅ computed b (List.mem_pair.2 ih) p hp) hp0
  · rintro (rfl | rfl)
    · exact .word (List.mem_pair.2 (.inl rfl)) (Computed.record₅ computed)
    · exact .word (List.mem_pair.2 (.inr rfl)) (Computed.large₅ computed)

/-- A store into the payload of a reachable block. -/
theorem step_store {h : Heap} {words : List Nat} {a v b : Nat} (hb : Reachable descs h words b)
    (hlo : b + headerSize ≤ a) (hhi : a + 8 ≤ b + blockSize h.mem b)
    (hfields : ∀ d, Reachable descs h words d → ∀ p ∈ pointerFields (wr h.mem a v) descs d,
      p = 0 ∨ ∃ d, Reachable descs h words d ∧ p = d + headerSize)
    (hslots : h.moduleSlots = []) : Step descs h (store h a v) (.program words) := by
  refine .program ⟨rfl, fun _ ha => ha, fun x hx => ?_, hfields, fun p hp => ?_⟩
  · have := hx b hb
    exact wr_of_apart (by omega)
  · have hnil : (store h a v).moduleSlots = [] := hslots
    rw [hnil] at hp
    cases hp

theorem step₅ : Step descs heap₅ heap₆ (.program [4160, 16777232]) := by
  refine step_store (reachable_iff.2 (.inl rfl)) (by decide) (Computed.room₅ computed) (fun b hb p hp => ?_)
    (Computed.slots₅ computed)
  rw [reachable_iff] at hb
  exact .inr ⟨_, reachable_iff.2 (.inr rfl), Computed.fields₆ computed b (List.mem_pair.2 hb) p hp⟩

theorem step₆ : Step descs heap₆ heap₇ (.newRec threshold (env (2 ^ 25)) [mutator] 1296) :=
  step_newRec (by decide) ⟨by decide, by decide, by decide, Computed.separate₆ computed⟩
    (Computed.some₆ computed)

theorem run₃ : Run descs (fun _ _ => True) heap₃ :=
  (((Run.init rfl (by decide)).step trivial step₀).step trivial step₁).step trivial step₂

theorem run₆ : Run descs (fun _ _ => True) heap₆ :=
  ((run₃.step trivial step₃).step trivial step₄).step trivial step₅

/-- Before the block is freed nothing has gone wrong. -/
theorem sliverFree₁ : Run descs (SliverFree descs) heap₁ :=
  (Run.init rfl (by decide)).step (Computed.noSliver₀ computed) step₀

end Sliver

/-! ## A run without a sliver

The block of 48 bytes is freed, and 48 bytes are allocated while a record with a pointer to itself lives. -/

namespace Reuse
open Sliver

def collect (h : Heap) (mutators : List Mutator) : Heap × CollectSummary :=
  (runCollectCycle 50 descs h mutators).getD (h, {})

/-- The record with the pointer is at 4160, behind the first block. -/
def heap₂ : Heap := (newRec heap₁ (2 ^ 22) [] 1200).1
def heap₃ : Heap := store heap₂ 4160 4160
def heap₄ : Heap := (collect heap₃ [mutator]).1
def heap₅ : Heap := (newRec heap₄ (2 ^ 22) [mutator] 1024).1

@[mk_iff] structure Computed : Prop where
  some₁ : (nm2NewRec descs threshold (env (2 ^ 22)) heap₁ [] 1200).isSome
  some₃ : (runCollectCycle 50 descs heap₃ [mutator]).isSome
  some₄ : (nm2NewRec descs threshold (env (2 ^ 22)) heap₄ [mutator] 1024).isSome
  separate₁ : ∀ c ∈ heap₁.clusters, c.Separate (Cluster.new (2 ^ 22) (recSize descs 1200))
  separate₄ : ∀ c ∈ heap₄.clusters, c.Separate (Cluster.new (2 ^ 22) (recSize descs 1024))
  noSliver₁ : SliverFree descs heap₁ (.newRec threshold (env (2 ^ 22)) [] 1200)
  noSliver₄ : SliverFree descs heap₄ (.newRec threshold (env (2 ^ 22)) [mutator] 1024)
  slots₂ : heap₂.moduleSlots = []
  record₂ : resolveHeapPtr heap₂.mem heap₂.clusters 4160 = some 4160
  fields₂ : ∀ p ∈ pointerFields heap₂.mem descs 4144, p = 0
  room₂ : 4160 + 8 ≤ 4144 + blockSize heap₂.mem 4144
  fields₃ : ∀ p ∈ pointerFields (wr heap₂.mem 4160 4160) descs 4144, p = 4144 + headerSize
  free₄ : ∃ c ∈ heap₄.clusters, c.freeList = 4096
  payload₅ : (newRec heap₄ (2 ^ 22) [mutator] 1024).2 = 4112

theorem computed : Computed := by
  rw [computed_iff]
  decide +kernel

theorem reachable_iff {b : Nat} : Reachable descs heap₂ [4160] b ↔ b = 4144 := by
  constructor
  · intro hb
    induction hb with
    | @word w p hw hres =>
      obtain rfl := List.mem_singleton.1 hw
      exact congrArg (· - headerSize) (Option.some.inj (hres.symm.trans (Computed.record₂ computed)))
    | @slot p hp hp0 =>
      rw [Computed.slots₂ computed] at hp
      cases hp
    | @field b p _ hp hp0 ih =>
      subst ih
      exact absurd (Computed.fields₂ computed p hp) hp0
  · rintro rfl
    exact .word (List.mem_singleton.2 rfl) (Computed.record₂ computed)

theorem step₁ : Step descs heap₁ heap₂ (.newRec threshold (env (2 ^ 22)) [] 1200) :=
  step_newRec (by decide) ⟨by decide, by decide, by decide, Computed.separate₁ computed⟩
    (Computed.some₁ computed)

theorem step₂ : Step descs heap₂ heap₃ (.program [4160]) := by
  refine step_store (reachable_iff.2 rfl) (by decide) (Computed.room₂ computed) (fun b hb p hp => ?_)
    (Computed.slots₂ computed)
  rw [reachable_iff] at hb
  subst hb
  exact .inr ⟨_, reachable_iff.2 rfl, Computed.fields₃ computed p hp⟩

theorem step₃ : Step descs heap₃ heap₄ (.collect 50 [mutator]) :=
  .collect (eq_some_getD (o := runCollectCycle 50 descs heap₃ [mutator]) (d := (heap₃, {}))
    (Computed.some₃ computed))

theorem step₄ : Step descs heap₄ heap₅ (.newRec threshold (env (2 ^ 22)) [mutator] 1024) :=
  step_newRec (by decide) ⟨by decide, by decide, by decide, Computed.separate₄ computed⟩
    (Computed.some₄ computed)

theorem run₃ : Run descs (SliverFree descs) heap₃ :=
  (sliverFree₁.step (Computed.noSliver₁ computed) step₁).step
    (show SliverFree descs heap₂ (.program [4160]) from Bool.false_ne_true) step₂

theorem run₄ : Run descs (SliverFree descs) heap₄ :=
  run₃.step (show SliverFree descs heap₃ (.collect 50 [mutator]) from Bool.false_ne_true) step₃

end Reuse

/-! ## Tiling -/

section claims
variable {descs : Nat → TypeDesc} {h h' : Heap} {op : Op}

/-- The cluster is tiled exactly: the walk from its base lands on `bump`, the bitmap has the starts of
the blocks it visits, and the free list has its free blocks. -/
structure Cluster.TiledExactly (m : Mem) (c : Cluster) (bs fl : List Nat) : Prop where
  tiled : Tiled (blockSize m) c.base (c.base + c.bump) bs
  sizes : ∀ b ∈ bs, blockAlign ∣ blockSize m b ∧ minBlock ≤ blockSize m b
  starts : ∀ i, c.blockStarts.testBit i = true ↔ c.base + blockAlign * i ∈ bs
  chain : Chain (nextLink m) c.freeList fl
  nodup : fl.Nodup
  free : ∀ b, b ∈ fl ↔ b ∈ bs ∧ clearMark (tagOf m b) = 0

theorem Run.tiledExactly (hrun : Run descs (SliverFree descs) h) :
    ∀ c ∈ h.clusters, ∃ bs fl, c.TiledExactly h.mem bs fl := by
  intro c hc
  obtain ⟨bs, fl, hok⟩ := hrun.heapInv.clusters.each c hc
  refine ⟨bs, fl, hok.tiled, hok.sizes, hok.starts, hok.chain, hok.nodup, fun b => ?_⟩
  rw [hok.free b, isFree, beq_iff_eq]
  simp

/-- One block is free, and the record behind it is in use. -/
theorem tiledExactly_reuse : ∃ c ∈ Reuse.heap₄.clusters, c.freeList = 4096 ∧
    ∃ bs fl, c.TiledExactly Reuse.heap₄.mem bs fl := by
  obtain ⟨c, hc, hfree⟩ := Reuse.Computed.free₄ Reuse.computed
  exact ⟨c, hc, hfree, Run.tiledExactly Reuse.run₄ c hc⟩

/-- The header says 32, the block has 48 bytes: the walk stops behind the header's size. -/
theorem tiling_lost : ∃ descs h, Run descs (fun _ _ => True) h ∧
    ¬ ∀ c ∈ h.clusters, ∃ bs fl, c.TiledExactly h.mem bs fl := by
  refine ⟨Sliver.descs, Sliver.heap₃, Sliver.run₃, fun hall => ?_⟩
  obtain ⟨c, hc, hbase, hbump⟩ := Sliver.Computed.cluster₃ Sliver.computed
  have hsize := Sliver.Computed.header₃ Sliver.computed
  obtain ⟨bs, fl, hok⟩ := hall c hc
  have htiled := hok.tiled
  rw [hbase, hbump] at htiled
  have hfirst := htiled.first.resolve_left (by decide)
  have hnext := htiled.next hfirst
  rw [hsize.1] at hnext
  have hmin := (hok.sizes _ (hnext.resolve_left (by decide))).2
  rw [hsize.2] at hmin
  exact absurd hmin (by decide)

/-! ## Safety -/

/-- The payload of `block`, just returned, is zeroed and overlaps no payload of another block that is
reachable before the call, from the roots that a collection sees, or afterwards from any words. -/
structure Fresh (descs : Nat → TypeDesc) (words : List Nat) (h h' : Heap) (block : Nat) : Prop where
  zero : ∀ x, block + headerSize ≤ x → x < block + blockSize h'.mem block → h'.mem x = 0
  kept : ∀ b, Reachable descs h words b → Kept h.mem h'.mem h'.clusters b
  disjoint : ∀ b, Reachable descs h words b ∨ (∃ words', Reachable descs h' words' b) ∧ b ≠ block →
    block + blockSize h'.mem block ≤ b + headerSize ∨ b + blockSize h'.mem b ≤ block + headerSize

/-- No reachable block is freed or handed out again. -/
def Op.Safe (descs : Nat → TypeDesc) (h h' : Heap) : Op → Prop
  | .newRec threshold env mutators tag => ∀ payload,
    nm2NewRec descs threshold env h mutators tag = some (h', payload) →
      Fresh descs (mutators.flatMap Mutator.rootWords) h h' (payload - headerSize)
  | .collect _ mutators => ∀ b, Reachable descs h (mutators.flatMap Mutator.rootWords) b →
    Kept h.mem h'.mem h'.clusters b
  | .program words => ∀ b, Reachable descs h words b → Live h'.mem h'.clusters b

theorem NewRec.fresh {words : List Nat} {tag block : Nat}
    (hnew : NewRec descs words tag h h' block) : Fresh descs words h h' block where
  zero := hnew.payload
  kept b hb := (hnew.kept b hb).2
  disjoint b hb := by
    have hlive : Live h'.mem h'.clusters b ∧ block ≠ b := by
      rcases hb with hb | ⟨⟨words', hb⟩, hne⟩
      · exact ⟨(hnew.kept b hb).2.live, (hnew.kept b hb).1.symm⟩
      · exact ⟨hb.live hnew.inv.tiled, hne.symm⟩
    have := hnew.inv.clusters.tiled.disjoint hnew.live.1 hlive.1.1 hlive.2
    omega

theorem Run.safe (hrun : Run descs (SliverFree descs) h) (hs : SliverFree descs h op)
    (hstep : Step descs h h' op) : op.Safe descs h h' := by
  have hinv := hrun.heapInv
  cases hstep with
  | newRec htag hbase _ =>
    intro payload hres
    obtain ⟨block, rfl, hnew⟩ := nm2NewRec_spec hinv htag hbase hs hres
    rw [Nat.add_sub_cancel]
    exact hnew.fresh
  | collect hres => exact (runCollectCycle_spec hinv hres).kept
  | program hp =>
    intro b hb
    rw [hp.clusters, hp.live_iff hinv]
    exact hb.live hinv.tiled

/-- The freed block is handed out again, and the record on the stack is left alone. -/
theorem safe_reuse : (Op.newRec Sliver.threshold (Sliver.env (2 ^ 22)) [Sliver.mutator] 1024).Safe Sliver.descs
    Reuse.heap₄ Reuse.heap₅ ∧ (Sliver.newRec Reuse.heap₄ (2 ^ 22) [Sliver.mutator] 1024).2 = 4112 :=
  ⟨Run.safe Reuse.run₄ (Reuse.Computed.noSliver₄ Reuse.computed) Reuse.step₄,
    Reuse.Computed.payload₅ Reuse.computed⟩

/-- The walks of the first cluster no longer visit the record with the pointer, so its mark from the
collection before is still set, what it points to is not marked and is handed out again. -/
theorem reachable_block_reused : ∃ descs h h' op, Run descs (fun _ _ => True) h ∧
    Step descs h h' op ∧ ¬ op.Safe descs h h' := by
  refine ⟨Sliver.descs, Sliver.heap₆, Sliver.heap₇, _, Sliver.run₆, Sliver.step₆, fun hsafe => ?_⟩
  have hword : 4160 ∈ [Sliver.mutator].flatMap Mutator.rootWords := by decide
  have hreach := Reachable.field (.word hword (Sliver.Computed.record₆ Sliver.computed))
    (Sliver.Computed.pointer₆ Sliver.computed) (Nat.succ_ne_zero _)
  have hres : nm2NewRec Sliver.descs Sliver.threshold (Sliver.env (2 ^ 25)) Sliver.heap₆
      [Sliver.mutator] 1296 = some (Sliver.heap₇, 16777232) := by
    rw [Sliver.newRec_eq (Sliver.Computed.some₆ Sliver.computed), Sliver.Computed.payload₇ Sliver.computed,
      Sliver.heap₇]
  have hsize := Sliver.Computed.size₇ Sliver.computed
  have hdisjoint := (hsafe _ hres).disjoint _ (.inl hreach)
  rw [show 16777232 - headerSize = 16777216 from rfl] at hdisjoint
  omega

end claims

end NewM2.Gc
