import NewM2.M2Heap.Grow

/-! # Runs of the Modula-2 heap

Allocations and deallocations in any order, with the program writing to the payloads it holds in
between. Every state a run reaches is `Sound`, and what an allocation returns is the program's alone
(`Run.heapSound`). It is zero but for the end of a block that is 16 bytes too large (`payload_notZero`). -/

namespace NewM2.M2Heap

/-- The heap, and what its users know of it: the regions that the operating system returned, the live
payloads with the sizes they were asked for, and the payloads freed since the last allocation. -/
structure State where
  heap : Heap
  regions : List (Nat × Nat)
  live : List (Nat × Nat)
  freed : List Nat

/-- The state behind an allocation that returned `p`. -/
def State.allocated (s : State) (fuel base size : Nat) (h : Heap) (p : Nat) : State :=
  { heap := h
    regions := addRegion s.regions (s.heap.asksFor fuel size) base
    live := if p = 0 then s.live else (p, size) :: s.live
    freed := if p = 0 then s.freed else [] }

/-- `Alloc` and `Free` make the same steps as `Allocate` and `Deallocate`. -/
inductive Step (s : State) : State → Prop
  | allocate {fuel base size p : Nat} {h : Heap}
      (os : Answers s.regions (s.heap.asksFor fuel size) base)
      (returns : s.heap.allocate fuel base size = some (h, p)) :
      Step s (s.allocated fuel base size h p)
  | deallocate {p : Nat} (live : p ∈ s.live.map Prod.fst) :
      Step s { s with
        heap := s.heap.deallocate p, live := s.live.filter (·.1 ≠ p), freed := p :: s.freed }
  | deallocateNil : Step s { s with heap := s.heap.deallocate 0 }
  | deallocateAgain {p : Nat} (freed : p ∈ s.freed) : Step s { s with heap := s.heap.deallocate p }
  | write {m : Mem} (inside : ∀ x, (∀ r ∈ s.live, x < r.1 ∨ r.1 + r.2 ≤ x) → m x = s.heap.mem x) :
      Step s { s with heap := { s.heap with mem := m } }

/-- The states of the runs that start with the memory `m`. -/
inductive Run (m : Mem) : State → Prop
  | init : Run m ⟨.init m, [], [], []⟩
  | step {s s' : State} : Run m s → Step s s' → Run m s'

/-! ## What holds of every state -/

/-- The usable bytes of the payload `p`. -/
def payloadSize (m : Mem) (p : Nat) : Nat := blkSize m (p - 16) - 16

/-- `blocks c` are the blocks of the chunk `c`, and `free` is the free list. -/
structure Sound (s : State) (blocks : Nat → List Nat) (free : List Nat) : Prop where
  chunks : Chain (wget s.heap.mem) s.heap.gFirstChunk (s.regions.map Prod.fst)
  bytes : ∀ r ∈ s.regions, wget s.heap.mem (r.1 + 8) = r.2
  tiled : ∀ r ∈ s.regions, Tiled (blkSize s.heap.mem) (r.1 + 16) (r.1 + r.2 - 16) (blocks r.1)
  sentinel : ∀ r ∈ s.regions, wget s.heap.mem (r.1 + r.2 - 16) = sentinel ||| allocFlag
  first : ∀ r ∈ s.regions, blkPrev s.heap.mem (r.1 + 16) = 0
  prev : ∀ r ∈ s.regions, ∀ b ∈ blocks r.1,
    blkPrev s.heap.mem (b + blkSize s.heap.mem b) = blkSize s.heap.mem b
  list : DChain (fNext s.heap.mem) (fPrev s.heap.mem) 0 s.heap.gFreeHead free
  once : free.Nodup
  free : ∀ b, b ∈ free ↔ (∃ r ∈ s.regions, b ∈ blocks r.1) ∧ blkAlloc s.heap.mem b = false
  apart : ∀ r ∈ s.regions, ∀ b ∈ blocks r.1, blkAlloc s.heap.mem b = false →
    blkAlloc s.heap.mem (b + blkSize s.heap.mem b) = true
  live : ∀ p, p ∈ s.live.map Prod.fst ↔
    ∃ b, p = b + 16 ∧ (∃ r ∈ s.regions, b ∈ blocks r.1) ∧ blkAlloc s.heap.mem b = true
  room : ∀ r ∈ s.live, r.1 ≠ 0 ∧ 16 ∣ r.1 ∧ r.2 ≤ payloadSize s.heap.mem r.1
  own : s.live.Pairwise fun r t => r.1 + payloadSize s.heap.mem r.1 ≤ t.1 ∨
    t.1 + payloadSize s.heap.mem t.1 ≤ r.1
  inUse : s.heap.bytesInUse = (s.live.map fun r => blkSize s.heap.mem (r.1 - 16)).sum

/-- The invariant of the runs. -/
structure Sim (s : State) (g : Ghost) : Prop where
  ready : Ready s.heap g
  regions : s.regions = g.regions
  live : s.live.map Prod.fst = g.live.map (· + 16)
  room : ∀ r ∈ s.live, r.2 + 16 ≤ blkSize s.heap.mem (r.1 - 16)
  freed : s.freed = g.freed.map (· + 16)

namespace Sim
variable {s : State} {g : Ghost} {fuel base size p b : Nat} {h : Heap} {r : Nat × Nat}

theorem mem_live (hs : Sim s g) (hr : r ∈ s.live) : ∃ b ∈ g.live, r.1 = b + 16 := by
  have hmem : r.1 ∈ g.live.map (· + 16) := hs.live ▸ List.mem_map_of_mem hr
  obtain ⟨b, hb, hrb⟩ := List.mem_map.1 hmem
  exact ⟨b, hb, hrb.symm⟩

theorem block_iff (hs : Sim s g) : (∃ r ∈ s.regions, b ∈ g.blocks r.1) ↔ g.Block b := by
  rw [hs.regions]
  constructor
  · rintro ⟨r, hr, hb⟩
    obtain ⟨c, hc, rfl⟩ := List.mem_map.1 hr
    exact ⟨c, hc, hb⟩
  · rintro ⟨c, hc, hb⟩
    exact ⟨(c, g.bytes c), List.mem_map.2 ⟨c, hc, rfl⟩, hb⟩

/-- Sizes are kept as long as the headers of live blocks are. -/
theorem room_of (hs : Sim s g) (hkeep : ∀ y ∈ g.live, wget h.mem y = wget s.heap.mem y)
    (hr : r ∈ s.live) : r.2 + 16 ≤ blkSize h.mem (r.1 - 16) := by
  obtain ⟨b, hb, hrb⟩ := hs.mem_live hr
  have hsize := hs.room r hr
  rw [hrb, Nat.add_sub_cancel] at hsize ⊢
  rwa [blkSize_congr (hkeep b hb)]

/-! ## Steps -/

theorem allocate (hs : Sim s g) (hos : Answers s.regions (s.heap.asksFor fuel size) base)
    (halloc : s.heap.allocate fuel base size = some (h, p)) :
    ∃ g', Sim (s.allocated fuel base size h p) g' ∧
      Outcome h g.live g.freed g' base size (s.heap.FitZero fuel size) p := by
  rw [hs.regions] at hos
  obtain ⟨g', hready, hregions, hkeep, hout⟩ := hs.ready.allocate_spec hos halloc
  refine ⟨g', ?_, hout⟩
  have hregions' : addRegion s.regions (s.heap.asksFor fuel size) base = g'.regions := by
    rw [hs.regions, hregions]
  unfold State.allocated
  cases hout with
  | failed keeps same why =>
    exact
      { ready := hready
        regions := hregions'
        live := by
          rw [if_pos rfl, keeps]
          exact hs.live
        room := fun r hr => hs.room_of hkeep hr
        freed := by
          rw [if_pos rfl, same]
          exact hs.freed }
  | @got b blockNeed need adds clears request room zero whole =>
    have hne : b + 16 ≠ 0 := Nat.succ_ne_zero _
    rw [if_neg hne, if_neg hne]
    refine
      { ready := hready
        regions := hregions'
        live := ?_
        room := fun r hr => ?_
        freed := ?_ }
    · rw [adds, List.map_cons, List.map_cons, hs.live]
    · rcases List.mem_cons.1 hr with rfl | hr
      · have := blockNeedFor_spec request
        change size + 16 ≤ blkSize h.mem (b + 16 - 16)
        rw [Nat.add_sub_cancel]
        omega
      · exact hs.room_of hkeep hr
    · rw [clears]
      rfl

theorem deallocate (hs : Sim s g) (hp : p ∈ s.live.map Prod.fst) :
    ∃ g', Sim { s with
      heap := s.heap.deallocate p, live := s.live.filter (·.1 ≠ p), freed := p :: s.freed } g' := by
  rw [hs.live] at hp
  obtain ⟨b, hb, rfl⟩ := List.mem_map.1 hp
  obtain ⟨blocks, free, hready, hkeep⟩ := hs.ready.deallocate_spec hb
  have hnodup := hs.ready.inv.liveNodup
  refine ⟨_, hready, hs.regions, ?_, fun r hr => ?_, ?_⟩
  · change (s.live.filter _).map Prod.fst = (g.live.erase b).map (· + 16)
    have hfilter : (s.live.filter (·.1 ≠ b + 16)).map Prod.fst =
        (s.live.map Prod.fst).filter (· ≠ b + 16) := by
      rw [List.filter_map]
      rfl
    rw [hfilter, hs.live, List.filter_map, hnodup.erase_eq_filter]
    refine congrArg (List.map _) (List.filter_congr fun y _ => ?_)
    by_cases hyb : y = b <;> simp [hyb]
  · obtain ⟨hr, hne⟩ := List.mem_filter.1 hr
    obtain ⟨y, hy, hry⟩ := hs.mem_live hr
    have hyb : y ≠ b := by
      rintro rfl
      simp [hry] at hne
    have hsize := hs.room r hr
    rw [hry, Nat.add_sub_cancel] at hsize ⊢
    rwa [blkSize_congr (hkeep y (hnodup.mem_erase_iff.2 ⟨hyb, hy⟩))]
  · exact congrArg _ hs.freed

/-- Freeing NIL. -/
theorem deallocate_nil (h : Heap) : h.deallocate 0 = h := if_pos rfl

/-- Freeing a payload again. -/
theorem deallocate_freed (hs : Sim s g) (hp : p ∈ s.freed) : s.heap.deallocate p = s.heap := by
  rw [hs.freed] at hp
  obtain ⟨b, hb, rfl⟩ := List.mem_map.1 hp
  obtain ⟨hf, a, ha, -, hab⟩ := hs.ready.inv.freed b hb
  have hra := hs.ready.inv.range ha
  unfold Heap.deallocate
  rw [if_neg (Nat.succ_ne_zero _), offN_eq (by unfold hdr; omega) (by omega), show b + 16 - hdr = b by rfl]
  dsimp only
  rw [hf]
  rfl

theorem write (hs : Sim s g) {m : Mem}
    (hm : ∀ x, (∀ r ∈ s.live, x < r.1 ∨ r.1 + r.2 ≤ x) → m x = s.heap.mem x) :
    Sim { s with heap := { s.heap with mem := m } } g := by
  have hi := hs.ready.inv
  -- only payloads of live blocks change
  have hlive : ∀ x, (∀ b ∈ g.live, x < b + 16 ∨ b + blkSize s.heap.mem b ≤ x) → m x = s.heap.mem x := by
    intro x hx
    refine hm x fun r hr => ?_
    obtain ⟨b, hb, hrb⟩ := hs.mem_live hr
    have hsize := hs.room r hr
    rw [hrb, Nat.add_sub_cancel] at hsize
    have := hx b hb
    omega
  have hoff : HeapInv.OffPayload g s.heap.mem m := fun x hx =>
    hlive x fun b hb => hx b ((hi.live b).1 hb).1
  have hfree : ∀ a, g.Block a → blkAlloc s.heap.mem a = false →
      ∀ x, a ≤ x → x < a + blkSize s.heap.mem a → m x = s.heap.mem x := by
    intro a ha haf x h1 h2
    refine hlive x fun b hb => ?_
    have hbB := ((hi.live b).1 hb).1
    have := hi.disjoint hbB ha (hi.live_ne hb haf)
    omega
  have hlinks : ∀ y ∈ g.free, fNext m y = fNext s.heap.mem y ∧ fPrev m y = fPrev s.heap.mem y := by
    intro y hy
    obtain ⟨hyB, hyf, -⟩ := (hi.free y).1 hy
    have hry := hi.range hyB
    unfold fNext fPrev
    rw [(hi.off_link hyB).1, (hi.off_link hyB).2]
    exact ⟨wget_congr fun x h1 h2 => hfree y hyB hyf x (by omega) (by omega),
      wget_congr fun x h1 h2 => hfree y hyB hyf x (by omega) (by omega)⟩
  have hinv := hi.payload hoff
    (hi.list.congr (fun y hy => (hlinks y hy).1) fun y hy => (hlinks y hy).2) hi.nodup hi.free
    (fun y hy => by
      obtain ⟨-, a, ha, haf, hay⟩ := hi.freed y hy
      have hra := hi.range ha
      exact wget_congr fun x h1 h2 => hfree a ha haf x (by omega) (by omega))
    fun y hy hny hnn hf => hs.ready.apart hy hf
  refine ⟨⟨hinv, hs.ready.held, hs.ready.stale, hs.ready.used⟩, hs.regions, hs.live, fun r hr => ?_, hs.freed⟩
  exact hs.room_of (h := { s.heap with mem := m }) (fun y hy => (hoff.block hi ((hi.live y).1 hy).1).1) hr

theorem step {s' : State} (hs : Sim s g) (hstep : Step s s') : ∃ g', Sim s' g' := by
  cases hstep with
  | allocate os returns =>
    obtain ⟨g', hg', -⟩ := hs.allocate os returns
    exact ⟨g', hg'⟩
  | deallocate live => exact hs.deallocate live
  | deallocateNil => exact ⟨g, (deallocate_nil s.heap).symm ▸ hs⟩
  | deallocateAgain freed => exact ⟨g, (hs.deallocate_freed freed).symm ▸ hs⟩
  | write inside => exact ⟨g, hs.write inside⟩

/-! ## Soundness -/

theorem sound (hs : Sim s g) : Sound s g.blocks g.free := by
  have hi := hs.ready.inv
  have hregion : ∀ r ∈ s.regions, r.1 ∈ g.chunks ∧ r.2 = chunkBytes s.heap.mem r.1 := by
    intro r hr
    rw [hs.regions] at hr
    obtain ⟨c, hc, rfl⟩ := List.mem_map.1 hr
    exact ⟨hc, (hi.chunk c hc).size.symm⟩
  have hsent : ∀ r ∈ s.regions, r.1 + r.2 - 16 = sentOf s.heap.mem r.1 := fun r hr => by
    rw [(hregion r hr).2]
    rfl
  have hsize : ∀ r ∈ s.live, ∃ b ∈ g.live, r.1 = b + 16 ∧
      payloadSize s.heap.mem r.1 = blkSize s.heap.mem b - 16 := by
    intro r hr
    obtain ⟨b, hb, hrb⟩ := hs.mem_live hr
    refine ⟨b, hb, hrb, ?_⟩
    unfold payloadSize
    rw [hrb, Nat.add_sub_cancel]
  refine
    { chunks := ?_
      bytes := fun r hr => (hregion r hr).2.symm
      tiled := fun r hr => ?_
      sentinel := fun r hr => ?_
      first := fun r hr => ?_
      prev := fun r hr b hb => ?_
      list := hi.list
      once := hi.nodup
      free := fun b => ?_
      apart := fun r hr b hb hf => hs.ready.apart ⟨r.1, (hregion r hr).1, hb⟩ hf
      live := fun p => ?_
      room := fun r hr => ?_
      own := ?_
      inUse := ?_ }
  · have hfst : s.regions.map Prod.fst = g.chunks := by
      rw [hs.regions]
      unfold Ghost.regions
      rw [List.map_map]
      exact List.map_id _
    rw [hfst]
    exact hi.chunks
  · rw [hsent r hr]
    exact (hi.chunk r.1 (hregion r hr).1).tiled
  · rw [hsent r hr]
    exact (hi.chunk r.1 (hregion r hr).1).sentinel
  · have hchunk := hi.chunk r.1 (hregion r hr).1
    have := hchunk.top
    have := hchunk.large
    unfold blkPrev
    rw [off_eq (by omega)]
    exact hchunk.first
  · have hchunk := hi.chunk r.1 (hregion r hr).1
    have hrange := hi.range ⟨r.1, (hregion r hr).1, hb⟩
    unfold blkPrev
    rw [off_eq (by omega)]
    refine hchunk.prev b hb ?_
    rw [hs.ready.stale]
    omega
  · rw [hi.free, hs.block_iff]
    exact and_congr_right fun _ => and_iff_left (hs.ready.held b)
  · rw [hs.live, List.mem_map]
    constructor
    · rintro ⟨b, hb, rfl⟩
      obtain ⟨hbB, hba⟩ := (hi.live b).1 hb
      exact ⟨b, rfl, hs.block_iff.2 hbB, hba⟩
    · rintro ⟨b, rfl, hbB, hba⟩
      exact ⟨b, (hi.live b).2 ⟨hs.block_iff.1 hbB, hba⟩, rfl⟩
  · obtain ⟨b, hb, hrb, hpay⟩ := hsize r hr
    have hrange := hi.range ((hi.live b).1 hb).1
    have hroom := hs.room r hr
    rw [hpay]
    rw [hrb, Nat.add_sub_cancel] at hroom
    omega
  · have hnodup : (s.live.map Prod.fst).Nodup := by
      rw [hs.live]
      exact hi.liveNodup.map fun x y hxy => Nat.add_right_cancel hxy
    refine (List.pairwise_map.1 hnodup).imp_of_mem fun {r t} hr ht hne => ?_
    obtain ⟨a, ha, hra, hpa⟩ := hsize r hr
    obtain ⟨b, hb, htb, hpb⟩ := hsize t ht
    have haB := ((hi.live a).1 ha).1
    have hbB := ((hi.live b).1 hb).1
    have hdis := hi.disjoint haB hbB (by omega)
    have := (hi.range haB).2.2.2
    have := (hi.range hbB).2.2.2
    omega
  · have hmap : (s.live.map fun r => blkSize s.heap.mem (r.1 - 16)) = g.live.map (blkSize s.heap.mem) := by
      have hcomp : (s.live.map fun r => blkSize s.heap.mem (r.1 - 16)) =
          (s.live.map Prod.fst).map fun p => blkSize s.heap.mem (p - 16) := by
        rw [List.map_map]
        rfl
      rw [hcomp, hs.live, List.map_map]
      exact List.map_congr_left fun y _ => congrArg (blkSize s.heap.mem) (Nat.add_sub_cancel y 16)
    rw [hmap]
    exact hs.ready.used.trans hi.used

end Sim

theorem Run.sim {m : Mem} {s : State} (hrun : Run m s) : ∃ g, Sim s g := by
  induction hrun with
  | init =>
    refine ⟨⟨[], fun _ => [], fun _ => 0, [], [], [], 0, fun _ => False, 0⟩, ⟨?_, fun _ hh => hh, rfl, rfl⟩,
      rfl, rfl, nofun, rfl⟩
    exact
      { chunks := rfl
        separate := nofun
        chunk := nofun
        list := rfl
        nodup := List.nodup_nil
        free := fun b => by simp [Ghost.Block]
        freed := nofun
        liveNodup := List.nodup_nil
        live := fun b => by simp [Ghost.Block]
        used := rfl }
  | step _ hstep ih =>
    obtain ⟨g, hs⟩ := ih
    exact hs.step hstep

/-- What an allocation promises of the payload that it returns. -/
structure NewPayload (s : State) (h : Heap) (size p : Nat) : Prop where
  aligned : 16 ∣ p
  large : size ≤ payloadSize h.mem p
  own : ∀ r ∈ s.live, p + payloadSize h.mem p ≤ r.1 ∨ r.1 + payloadSize h.mem r.1 ≤ p

/-- The payload is zero. -/
def AllZero (m : Mem) (p : Nat) : Prop := ∀ x, p ≤ x → x < p + payloadSize m p → m x = 0

/-- NIL is for requests that `VirtualAlloc` turns down, and for huge ones. -/
theorem Run.allocate_ne_nil {m : Mem} {s : State} (hrun : Run m s) {fuel base size p : Nat} {h : Heap}
    (hos : Answers s.regions (s.heap.asksFor fuel size) base) (hbase : base ≠ 0) (hsize : size ≤ 2 ^ 63)
    (halloc : s.heap.allocate fuel base size = some (h, p)) : p ≠ 0 := by
  obtain ⟨g, hs⟩ := hrun.sim
  obtain ⟨g', -, hout⟩ := hs.allocate hos halloc
  cases hout with
  | failed keeps same why =>
    have hlarge := why.resolve_left hbase
    have hround : cadd size 15 = size + 15 := cadd_eq (by omega)
    unfold Heap.blockNeedFor roundUp at hlarge
    rw [hround, and_sizeMask (by omega)] at hlarge
    dsimp only at hlarge
    rw [if_neg (by omega)] at hlarge
    generalize hx : (if (size + 15) / 16 * 16 < 16 then 16 else (size + 15) / 16 * 16) = x at hlarge
    have hle : x ≤ 2 ^ 63 + 16 := by
      split at hx <;> omega
    have hneed : cadd x hdr = x + 16 := cadd_eq (by unfold hdr; omega)
    rw [hneed, if_neg (by omega)] at hlarge
    have := hlarge _ rfl
    omega
  | got => exact Nat.succ_ne_zero _

/-- Every state of a run is sound; what an allocation returns is new and large enough, and it is zero just if
the block that was found has a zero end; allocations end, with NIL only where the operating system refuses or
the size is huge; freeing NIL or a freed payload changes nothing. -/
theorem Run.heapSound {m : Mem} {s : State} (hrun : Run m s) :
    (∃ blocks free, Sound s blocks free) ∧
      (∀ fuel base size h p, Answers s.regions (s.heap.asksFor fuel size) base →
        s.heap.allocate fuel base size = some (h, p) → (base ≠ 0 → size ≤ 2 ^ 63 → p ≠ 0) ∧
          (p ≠ 0 → NewPayload s h size p ∧ (AllZero h.mem p ↔ s.heap.FitZero fuel size))) ∧
      (∀ size, ∃ fuel, ∀ base, Answers s.regions (s.heap.asksFor fuel size) base →
        (s.heap.allocate fuel base size).isSome) ∧
      s.heap.deallocate 0 = s.heap ∧ ∀ p ∈ s.freed, s.heap.deallocate p = s.heap := by
  obtain ⟨g, hs⟩ := hrun.sim
  refine ⟨⟨_, _, hs.sound⟩, fun fuel base size h p hos halloc =>
      ⟨fun hbase hsize => hrun.allocate_ne_nil hos hbase hsize halloc, fun hp => ?_⟩, fun size => ?_,
    Sim.deallocate_nil _, fun p hp => hs.deallocate_freed hp⟩
  · obtain ⟨g', hs', hout⟩ := hs.allocate hos halloc
    have hsound := hs'.sound
    unfold State.allocated at hsound
    rw [if_neg hp] at hsound
    obtain ⟨-, hdvd, hlarge⟩ := hsound.room (p, size) List.mem_cons_self
    refine ⟨⟨hdvd, hlarge, fun r hr => (List.pairwise_cons.1 hsound.own).1 r hr⟩, ?_⟩
    cases hout with
    | failed => exact absurd rfl hp
    | @got b blockNeed need adds clears request room zero whole =>
      have := blockNeedFor_spec request
      have hend : b + 16 + payloadSize h.mem (b + 16) = b + blkSize h.mem b := by
        unfold payloadSize
        rw [Nat.add_sub_cancel]
        omega
      rw [AllZero, hend]
      exact whole
  · refine ⟨g.free.length + 2, fun base hos => hs.ready.isSome_allocate size base ?_⟩
    rwa [← hs.regions]

/-! ## A payload that is not zero

A block of 48 bytes is filled and freed. A request that needs 32 of them takes it whole. -/

namespace Leftover

def alloc (h : Heap) (size : Nat) : Heap × Nat := (h.allocate 3 65536 size).getD (h, 0)

def heap₁ : Heap := (alloc (.init fun _ => 0) 32).1
def heap₂ : Heap := (alloc heap₁ 16).1
def heap₃ : Heap := { heap₂ with mem := wput heap₂.mem 65584 0xFF }
def heap₄ : Heap := heap₃.deallocate 65568
def heap₅ : Heap := (alloc heap₄ 16).1

/-- The states of the run. -/
def state₁ : State := ⟨heap₁, [(65536, 2 ^ 20)], [(65568, 32)], []⟩
def state₂ : State := ⟨heap₂, [(65536, 2 ^ 20)], [(65616, 16), (65568, 32)], []⟩
def state₄ : State := ⟨heap₄, [(65536, 2 ^ 20)], [(65616, 16)], [65568]⟩

@[mk_iff] structure Computed : Prop where
  asks₀ : (Heap.init fun _ => 0).asksFor 3 32 = some (2 ^ 20)
  payload₁ : ((Heap.init fun _ => 0).allocate 3 65536 32).map Prod.snd = some 65568
  asks₁ : heap₁.asksFor 3 16 = none
  payload₂ : (heap₁.allocate 3 65536 16).map Prod.snd = some 65616
  asks₄ : heap₄.asksFor 3 16 = none
  payload₅ : (heap₄.allocate 3 65536 16).map Prod.snd = some 65568
  size₅ : payloadSize heap₅.mem 65568 = 32
  byte₅ : heap₅.mem 65584 ≠ 0

theorem computed : Computed := by
  rw [computed_iff]
  decide +kernel

theorem allocate_eq {h : Heap} {size p : Nat} (hp : (h.allocate 3 65536 size).map Prod.snd = some p) :
    h.allocate 3 65536 size = some ((alloc h size).1, p) := by
  obtain ⟨r, hr, rfl⟩ := Option.map_eq_some_iff.1 hp
  rw [alloc, hr]
  rfl

theorem run₁ : Run (fun _ => 0) state₁ := by
  have hos : Answers [] ((Heap.init fun _ => 0).asksFor 3 32) 65536 := by
    rw [Computed.asks₀ computed]
    rintro bytes ⟨⟩
    exact .inr ⟨by decide, by decide, by decide, by decide, nofun⟩
  have hrun := Run.init.step (.allocate hos (allocate_eq (Computed.payload₁ computed)))
  rw [State.allocated, Computed.asks₀ computed] at hrun
  exact hrun

theorem run₂ : Run (fun _ => 0) state₂ := by
  have hos : Answers state₁.regions (heap₁.asksFor 3 16) 65536 := by
    rw [Computed.asks₁ computed]
    exact nofun
  have hrun := run₁.step (.allocate hos (allocate_eq (Computed.payload₂ computed)))
  rw [State.allocated, show state₁.heap.asksFor 3 16 = none from Computed.asks₁ computed] at hrun
  exact hrun

theorem run₄ : Run (fun _ => 0) state₄ := by
  have hwrite := run₂.step (.write (m := heap₃.mem) fun x hx => ?_)
  · exact hwrite.step (.deallocate (p := 65568) (by decide))
  · have hapart := hx (65568, 32) (List.mem_cons_of_mem _ List.mem_cons_self)
    exact wput_of_apart (by omega)

end Leftover

/-- The last 16 bytes of the payload hold what its last user wrote. -/
theorem payload_notZero : ∃ s : State, Run (fun _ => 0) s ∧ ∃ fuel base size h p,
    Answers s.regions (s.heap.asksFor fuel size) base ∧ s.heap.allocate fuel base size = some (h, p) ∧
      p ≠ 0 ∧ ¬ AllZero h.mem p := by
  refine ⟨Leftover.state₄, Leftover.run₄, 3, 65536, 16, Leftover.heap₅, 65568, ?_,
    Leftover.allocate_eq (Leftover.Computed.payload₅ Leftover.computed), by decide, fun hzero => ?_⟩
  · rw [show Leftover.state₄.heap.asksFor 3 16 = none from Leftover.Computed.asks₄ Leftover.computed]
    exact nofun
  · refine Leftover.Computed.byte₅ Leftover.computed (hzero 65584 (by decide) ?_)
    rw [Leftover.Computed.size₅ Leftover.computed]
    decide

/-- The same run, in which nothing else goes wrong. -/
theorem heapSound_leftover : (∃ blocks free, Sound Leftover.state₄ blocks free) ∧
    (∀ fuel base size h p, Answers Leftover.state₄.regions (Leftover.heap₄.asksFor fuel size) base →
      Leftover.heap₄.allocate fuel base size = some (h, p) → (base ≠ 0 → size ≤ 2 ^ 63 → p ≠ 0) ∧
        (p ≠ 0 → NewPayload Leftover.state₄ h size p ∧ (AllZero h.mem p ↔ Leftover.heap₄.FitZero fuel size))) ∧
    (∀ size, ∃ fuel, ∀ base, Answers Leftover.state₄.regions (Leftover.heap₄.asksFor fuel size) base →
      (Leftover.heap₄.allocate fuel base size).isSome) ∧
    Leftover.heap₄.deallocate 0 = Leftover.heap₄ ∧
    ∀ p ∈ Leftover.state₄.freed, Leftover.heap₄.deallocate p = Leftover.heap₄ :=
  Run.heapSound Leftover.run₄

end NewM2.M2Heap
