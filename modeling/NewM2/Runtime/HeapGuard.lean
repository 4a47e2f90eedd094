import Mathlib
import NewM2.Lib.CountingFilter

/-!
# The guarded manual heap (`newm2-runtime/src/heap.rs`)

NEW and DISPOSE go to the allocator of the operating system (`Imp`), and with the guard on through a
filter of 2^22 counters that stop at 255. `nm2Free` refuses an address one of whose four counters is
zero. The filter hashes addresses without their low four bits and is asked about any address, so an
address that was never returned can pass for one that was, and then takes away its counts.
-/

namespace NewM2.HeapGuard
open CountingFilter

abbrev Ptr := UInt64

/-! ## State -/

structure HeapStats where
  allocBlocks : UInt64
  allocBytes : UInt64
  freeBlocks : UInt64
  freeBytes : UInt64
  liveBlocks : UInt64
  liveBytes : UInt64
  peakLiveBytes : UInt64
deriving Repr, DecidableEq

namespace HeapStats

def recordAlloc (s : HeapStats) (bytes : UInt64) : HeapStats :=
  { s with
    allocBlocks := s.allocBlocks + 1
    allocBytes := s.allocBytes + bytes
    liveBlocks := s.liveBlocks + 1
    liveBytes := s.liveBytes + bytes
    peakLiveBytes := max s.peakLiveBytes (s.liveBytes + bytes) }

def recordFree (s : HeapStats) (bytes : UInt64) : HeapStats :=
  { s with
    freeBlocks := s.freeBlocks + 1
    freeBytes := s.freeBytes + bytes
    liveBlocks := s.liveBlocks - 1
    liveBytes := s.liveBytes - bytes }

end HeapStats

/-- `BLOOM_LEN`. -/
def bloomLen : Nat := 2 ^ 22

/-- `BLOOM_MASK`. -/
def bloomMask : UInt64 := UInt64.ofNat (bloomLen - 1)

instance : NeZero bloomLen := ⟨by decide⟩

abbrev Bloom := Fin bloomLen → Nat

/-- `bloom_indices`: k slots by double hashing, with an odd step. -/
def bloomIndices (ptr : Ptr) : List (Fin bloomLen) :=
  let h := ptr >>> 4
  let h1 := h * 0xff51afd7ed558ccd
  let h1 := h1 ^^^ (h1 >>> 33)
  let h2 := h * 0xc4ceb9fe1a85ec53
  let h2 := h2 ^^^ (h2 >>> 29)
  let h2 := h2 ||| 1
  [0, 1, 2, 3].map fun i => Fin.ofNat bloomLen ((h1 + i * h2) &&& bloomMask).toNat

/-- A counter at 255 stays there. -/
def bloomAdd (b : Bloom) (ptr : Ptr) : Bloom :=
  (bloomIndices ptr).foldl (fun b i => Function.update b i (if b i = 255 then b i else b i + 1)) b

/-- Whether the pointer was (probably) live; then it is removed. -/
def bloomRemove (b : Bloom) (ptr : Ptr) : Bool × Bloom :=
  if (bloomIndices ptr).any (b · == 0) then (false, b)
  else
    (true, (bloomIndices ptr).foldl
      (fun b i => Function.update b i (if b i = 0 ∨ b i = 255 then b i else b i - 1)) b)

/-- The allocator of the operating system, with its own state. -/
structure Imp (σ : Type) where
  alloc : σ → UInt64 → Ptr × σ
  usableSize : σ → Ptr → UInt64
  free : σ → Ptr → σ

structure State (σ : Type) where
  heap : σ
  bloom : Bloom
  doubleFree : UInt64
  stats : HeapStats
  guardOn : Bool

section
variable {σ : Type} (imp : Imp σ)

/-! ## Allocating and freeing -/

def nm2Alloc (s : State σ) (size : UInt64) : Ptr × State σ :=
  let (ptr, heap) := imp.alloc s.heap (max size 1)
  if ptr = 0 then (ptr, { s with heap })
  else
    (ptr, { s with
      heap
      stats := s.stats.recordAlloc (imp.usableSize heap ptr)
      bloom := if s.guardOn then bloomAdd s.bloom ptr else s.bloom })

/-- The guard takes the free of `ptr` for a double or invalid one. -/
def State.refuses (s : State σ) (ptr : Ptr) : Bool := s.guardOn && !(bloomRemove s.bloom ptr).1

def nm2Free (s : State σ) (ptr : Ptr) : State σ :=
  if ptr = 0 then s
  else if s.refuses ptr then { s with doubleFree := s.doubleFree + 1 }
  else
    { s with
      heap := imp.free s.heap ptr
      bloom := if s.guardOn then (bloomRemove s.bloom ptr).2 else s.bloom
      stats := s.stats.recordFree (imp.usableSize s.heap ptr) }

/-- A call of the program. -/
inductive Call
  | alloc (size : UInt64)
  | free (ptr : Ptr)
deriving Repr, DecidableEq

/-- The state, and the addresses that were returned and not freed since. -/
structure Config (σ : Type) where
  state : State σ
  live : Finset Ptr

def Config.alloc (c : Config σ) (size : UInt64) : Config σ :=
  let (ptr, s) := nm2Alloc imp c.state size
  ⟨s, if ptr = 0 then c.live else insert ptr c.live⟩

def Config.free (c : Config σ) (ptr : Ptr) : Config σ :=
  ⟨nm2Free imp c.state ptr, if c.state.refuses ptr then c.live else c.live.erase ptr⟩

/-- One call. The allocator returns no address that is live. -/
inductive Step : Config σ → Call → Config σ → Prop
  | alloc {c : Config σ} {size : UInt64} (h : (nm2Alloc imp c.state size).1 ∉ c.live) :
    Step c (.alloc size) (c.alloc imp size)
  | free {c : Config σ} {ptr : Ptr} : Step c (.free ptr) (c.free imp ptr)

/-- Before the first call, with the guard on. -/
def Config.initial (heap : σ) : Config σ :=
  ⟨⟨heap, fun _ => 0, 0, ⟨0, 0, 0, 0, 0, 0, 0⟩, true⟩, ∅⟩

end

/-! ## The slots of an address -/

def slots (ptr : Ptr) : Finset (Fin bloomLen) := (bloomIndices ptr).toFinset

/-- An odd step visits four slots. -/
theorem doubleHash_nodup (a b : UInt64) (hb : b.toNat % 2 = 1) :
    (([0, 1, 2, 3] : List UInt64).map fun i =>
      Fin.ofNat bloomLen ((a + i * b) &&& bloomMask).toNat).Nodup := by
  have hval : ∀ i : UInt64, (Fin.ofNat bloomLen ((a + i * b) &&& bloomMask).toNat).val =
      (a.toNat + i.toNat * b.toNat) % 2 ^ 22 := by
    intro i
    have hmask : bloomMask.toNat = 2 ^ 22 - 1 := by decide
    rw [Fin.val_ofNat, UInt64.toNat_and, hmask, Nat.and_two_pow_sub_one_eq_mod, UInt64.toNat_add,
      UInt64.toNat_mul, bloomLen]
    omega
  have hne : ∀ i j : UInt64, i.toNat < j.toNat → j.toNat < 4 →
      Fin.ofNat bloomLen ((a + i * b) &&& bloomMask).toNat ≠
        Fin.ofNat bloomLen ((a + j * b) &&& bloomMask).toNat := by
    intro i j hij hj h
    have h := congrArg Fin.val h
    rw [hval, hval] at h
    -- the difference is one, two or three odd steps
    obtain ⟨d, hd⟩ := Nat.exists_eq_add_of_lt hij
    rw [hd, Nat.add_assoc, Nat.add_mul] at h
    have hlt : d < 3 := by omega
    generalize i.toNat * b.toNat = x at h
    interval_cases d <;> omega
  simp only [List.map_cons, List.map_nil, List.nodup_cons, List.mem_cons, List.not_mem_nil,
    or_false, not_or]
  refine ⟨⟨hne _ _ ?_ ?_, hne _ _ ?_ ?_, hne _ _ ?_ ?_⟩, ⟨hne _ _ ?_ ?_, hne _ _ ?_ ?_⟩,
    hne _ _ ?_ ?_, ?_⟩ <;> decide

theorem bloomIndices_nodup (ptr : Ptr) : (bloomIndices ptr).Nodup :=
  doubleHash_nodup _ _ (by rw [UInt64.toNat_or, Nat.or_mod_two_eq_one]; exact .inr rfl)

/-! ## The filter counts the live addresses -/

theorem foldl_update {ι : Type} [DecidableEq ι] (f : Nat → Nat) {l : List ι} (hl : l.Nodup)
    (b : ι → Nat) (j : ι) :
    l.foldl (fun b i => Function.update b i (f (b i))) b j = if j ∈ l then f (b j) else b j := by
  induction l generalizing b with
  | nil => rfl
  | cons i rest ih =>
    obtain ⟨hi, hrest⟩ := List.nodup_cons.1 hl
    rw [List.foldl_cons, ih hrest]
    rcases eq_or_ne j i with rfl | hji
    · simp [hi]
    · simp [hji]

theorem bloomAdd_eq (b : Bloom) (ptr : Ptr) : bloomAdd b ptr = add slots 255 b ptr := by
  funext j
  refine (foldl_update (bump 255) (bloomIndices_nodup ptr) b j).trans ?_
  simp only [add, slots, List.mem_toFinset]

theorem bloomRemove_fst {b : Bloom} {ptr : Ptr} : (bloomRemove b ptr).1 = true ↔ Accepts slots b ptr := by
  unfold bloomRemove Accepts slots
  split_ifs with h
  · simp only [List.any_eq_true, beq_iff_eq] at h
    obtain ⟨i, hi, h0⟩ := h
    simp only [false_iff]
    exact fun h => h i (List.mem_toFinset.2 hi) h0
  · simp only [List.any_eq_true, beq_iff_eq, not_exists, not_and] at h
    simp only [true_iff]
    exact fun i hi => h i (List.mem_toFinset.1 hi)

theorem bloomRemove_snd {b : Bloom} {ptr : Ptr} (h : (bloomRemove b ptr).1 = true) :
    (bloomRemove b ptr).2 = take slots 255 b ptr := by
  unfold bloomRemove at h ⊢
  split_ifs at h ⊢
  funext j
  refine (foldl_update (drop 255) (bloomIndices_nodup ptr) b j).trans ?_
  simp only [take, slots, List.mem_toFinset]

section
variable {σ : Type} {imp : Imp σ} {c c' : Config σ} {ptr : Ptr}

/-- The guard is on and its filter counts the live addresses. -/
structure Inv (c : Config σ) : Prop where
  guardOn : c.state.guardOn = true
  counts : Counts slots 255 c.state.bloom c.live
  nonnull : 0 ∉ c.live

theorem refuses_eq_false (h : c.state.guardOn = true) :
    c.state.refuses ptr = false ↔ Accepts slots c.state.bloom ptr := by
  rw [← bloomRemove_fst, State.refuses, h]
  simp

theorem Inv.initial (heap : σ) : Inv (Config.initial heap) :=
  ⟨rfl, .empty (by decide), Finset.notMem_empty 0⟩

/-- A live address is not refused. -/
theorem Inv.admits (h : Inv c) (hptr : ptr ∈ c.live) : c.state.refuses ptr = false :=
  (refuses_eq_false h.guardOn).2 (h.counts.accepts (by decide) hptr)

theorem nm2Alloc_fst (s : State σ) (size : UInt64) :
    (nm2Alloc imp s size).1 = (imp.alloc s.heap (max size 1)).1 := by
  simp only [nm2Alloc]
  split_ifs <;> rfl

theorem alloc_null {size : UInt64} (h : (nm2Alloc imp c.state size).1 = 0) :
    (c.alloc imp size).state.bloom = c.state.bloom ∧ (c.alloc imp size).live = c.live ∧
      (c.alloc imp size).state.guardOn = c.state.guardOn := by
  rw [nm2Alloc_fst] at h
  simp only [Config.alloc, nm2Alloc, h, if_true]
  exact ⟨trivial, trivial, trivial⟩

theorem alloc_block {size : UInt64} (hon : c.state.guardOn = true)
    (h : (nm2Alloc imp c.state size).1 ≠ 0) :
    (c.alloc imp size).state.bloom = add slots 255 c.state.bloom (nm2Alloc imp c.state size).1 ∧
      (c.alloc imp size).live = insert (nm2Alloc imp c.state size).1 c.live ∧
        (c.alloc imp size).state.guardOn = true := by
  rw [nm2Alloc_fst] at h ⊢
  simp only [Config.alloc, nm2Alloc, h, if_false, hon, if_true, bloomAdd_eq]
  exact ⟨trivial, trivial, trivial⟩

theorem Inv.alloc (h : Inv c) {size : UInt64} (hfresh : (nm2Alloc imp c.state size).1 ∉ c.live) :
    Inv (c.alloc imp size) := by
  by_cases h0 : (nm2Alloc imp c.state size).1 = 0
  · obtain ⟨hbloom, hlive, hon⟩ := alloc_null h0
    exact ⟨hon.trans h.guardOn, by rw [hbloom, hlive]; exact h.counts, by rw [hlive]; exact h.nonnull⟩
  · obtain ⟨hbloom, hlive, hon⟩ := alloc_block h.guardOn h0
    refine ⟨hon, by rw [hbloom, hlive]; exact h.counts.add hfresh, ?_⟩
    rw [hlive, Finset.mem_insert, not_or]
    exact ⟨Ne.symm h0, h.nonnull⟩

theorem free_refused (imp : Imp σ) (h : c.state.refuses ptr = true) :
    (c.free imp ptr).state.bloom = c.state.bloom ∧ (c.free imp ptr).live = c.live ∧
      (c.free imp ptr).state.guardOn = c.state.guardOn := by
  simp only [Config.free, nm2Free, h, if_true]
  split_ifs <;> exact ⟨rfl, trivial, rfl⟩

theorem free_accepted (imp : Imp σ) (hon : c.state.guardOn = true) (h0 : ptr ≠ 0)
    (h : c.state.refuses ptr = false) :
    (c.free imp ptr).state.bloom = take slots 255 c.state.bloom ptr ∧
      (c.free imp ptr).live = c.live.erase ptr ∧ (c.free imp ptr).state.guardOn = true := by
  have hremove := bloomRemove_snd (bloomRemove_fst.2 ((refuses_eq_false hon).1 h))
  simp only [Config.free, nm2Free, h, h0, if_false, Bool.false_eq_true, hon, if_true]
  exact ⟨hremove, trivial, trivial⟩

/-- Freeing null does nothing. -/
theorem free_null (h : 0 ∉ c.live) : c.free imp 0 = c := by
  simp [Config.free, nm2Free, Finset.erase_eq_of_notMem h]

/-- What the guard is asked to free before a call is null, live, refused, or meets only counters that
stay where they are. -/
def Harmless (c : Config σ) : Call → Prop
  | .alloc _ => True
  | .free ptr =>
    ptr = 0 ∨ ptr ∈ c.live ∨ c.state.refuses ptr = true ∨ Stuck slots 255 c.state.bloom ptr

theorem Inv.step {call : Call} (h : Inv c) (hstep : Step imp c call c') (hc : Harmless c call) :
    Inv c' := by
  cases hstep with
  | alloc hfresh => exact h.alloc hfresh
  | @free ptr =>
    by_cases h0 : ptr = 0
    · subst h0
      rwa [free_null h.nonnull]
    rcases hr : c.state.refuses ptr with - | -
    · obtain ⟨hbloom, hlive, hon⟩ := free_accepted imp h.guardOn h0 hr
      refine ⟨hon, ?_, ?_⟩
      · rw [hbloom, hlive]
        by_cases hptr : ptr ∈ c.live
        · exact h.counts.take hptr
        · rcases hc with hc | hc | hc | hc
          · exact absurd hc h0
          · exact absurd hc hptr
          · rw [hr] at hc
            cases hc
          · rw [take_of_stuck hc, Finset.erase_eq_of_notMem hptr]
            exact h.counts
      · rw [hlive]
        exact fun hmem => h.nonnull (Finset.mem_of_mem_erase hmem)
    · obtain ⟨hbloom, hlive, hon⟩ := free_refused imp hr
      exact ⟨hon.trans h.guardOn, by rw [hbloom, hlive]; exact h.counts, by rw [hlive]; exact h.nonnull⟩

/-- A harmless call, or any number of them. -/
abbrev HarmlessRun (imp : Imp σ) : Config σ → Config σ → Prop :=
  Relation.ReflTransGen fun c c' => ∃ call, Step imp c call c' ∧ Harmless c call

/-- Frees of live addresses, one after another. -/
abbrev CorrectFrees (imp : Imp σ) : Config σ → Config σ → Prop :=
  Relation.ReflTransGen fun c c' => ∃ ptr ∈ c.live, Step imp c (.free ptr) c'

theorem Inv.run {start : Config σ} (h : Inv start) (hrun : HarmlessRun imp start c) : Inv c := by
  induction hrun with
  | refl => exact h
  | tail _ hstep ih =>
    obtain ⟨call, hstep, hc⟩ := hstep
    exact ih.step hstep hc

/-- The addresses of an undercounted slot cannot all be freed. -/
theorem exists_refusal {i : Fin bloomLen} (hon : c.state.guardOn = true) (hnonnull : 0 ∉ c.live)
    (h : Undercounts slots 255 c.state.bloom c.live i) :
    ∃ c' ptr, CorrectFrees imp c c' ∧ ptr ∈ c'.live ∧ c'.state.refuses ptr = true := by
  induction hn : c.state.bloom i using Nat.strong_induction_on generalizing c with
  | _ n ih =>
    obtain ⟨ptr, hptr, hi⟩ := exists_of_load_pos (Nat.zero_lt_of_lt h.2)
    rcases hr : c.state.refuses ptr with - | -
    · obtain ⟨hbloom, hlive, hon'⟩ := free_accepted imp hon
        (fun h0 => hnonnull (h0 ▸ hptr)) hr
      obtain ⟨hunder, hlt⟩ := h.take hptr hi ((refuses_eq_false hon).1 hr)
      rw [← hbloom] at hlt
      rw [← hbloom, ← hlive] at hunder
      obtain ⟨c', q, hrun, hq⟩ := ih _ (hn ▸ hlt) hon'
        (fun hmem => hnonnull (Finset.mem_of_mem_erase (hlive ▸ hmem))) hunder rfl
      exact ⟨c', q, .head ⟨ptr, hptr, .free⟩ hrun, hq⟩
    · exact ⟨c, ptr, .refl, hptr, hr⟩

theorem Inv.exists_refusal {call : Call} (h : Inv c) (hstep : Step imp c call c')
    (hc : ¬ Harmless c call) :
    ∃ c'' ptr, CorrectFrees imp c' c'' ∧ ptr ∈ c''.live ∧ c''.state.refuses ptr = true := by
  cases hstep with
  | alloc => exact absurd trivial hc
  | @free ptr =>
    simp only [Harmless, not_or, Bool.not_eq_true] at hc
    obtain ⟨h0, hptr, hr, hstuck⟩ := hc
    obtain ⟨hbloom, hlive, hon⟩ := free_accepted imp h.guardOn h0 hr
    rw [Finset.erase_eq_of_notMem hptr] at hlive
    obtain ⟨i, hi⟩ := h.counts.undercounts ((refuses_eq_false h.guardOn).1 hr) hstuck
    rw [← hbloom, ← hlive] at hi
    exact HeapGuard.exists_refusal hon (hlive ▸ h.nonnull) hi

/-- As long as the calls are harmless no free of a live address is refused; after the first call
that is not, one of the live addresses cannot be freed any more. -/
theorem harmless_iff_frees_admitted (imp : Imp σ) (heap : σ) (c : Config σ)
    (hrun : HarmlessRun imp (Config.initial heap) c) :
    (∀ ptr ∈ c.live, c.state.refuses ptr = false) ∧
    ∀ call c', Step imp c call c' →
      (Harmless c call ↔
        ∀ c'' ptr, CorrectFrees imp c' c'' → ptr ∈ c''.live → c''.state.refuses ptr = false) := by
  have hinv := (Inv.initial heap).run hrun
  refine ⟨fun ptr hptr => hinv.admits hptr, fun call c' hstep => ⟨fun hc c'' _ hfrees => ?_, ?_⟩⟩
  · have hrun : HarmlessRun imp c' c'' :=
      Relation.ReflTransGen.mono (fun _ _ ⟨q, hq, h⟩ => ⟨_, h, .inr (.inl hq)⟩) _ _ hfrees
    exact ((hinv.step hstep hc).run hrun).admits
  · intro hadmits
    by_contra hc
    obtain ⟨c'', ptr, hfrees, hptr, hr⟩ := hinv.exists_refusal hstep hc
    rw [hadmits c'' ptr hfrees hptr] at hr
    cases hr

end

/-- An allocator with one block of 16 bytes, at 4096. -/
def oneBlock : Imp Unit := ⟨fun _ _ => (4096, ()), fun _ _ => 16, fun _ _ => ()⟩

/-- The block is allocated. -/
def oneBlockLive : Config Unit := (Config.initial ()).alloc oneBlock 8

theorem oneBlockLive_step : Step oneBlock (Config.initial ()) (.alloc 8) oneBlockLive :=
  .alloc (Finset.notMem_empty _)

/-- While the block is live the guard lets it be freed. -/
theorem harmless_iff_frees_admitted_oneBlock : oneBlockLive.state.refuses 4096 = false :=
  (harmless_iff_frees_admitted oneBlock () oneBlockLive
    (.single ⟨_, oneBlockLive_step, trivial⟩)).1 4096 (by decide)

/-- The free of an address inside the block passes for one of the block, which then cannot be freed. -/
theorem live_free_refused :
    ∃ c₁ c₂, Step oneBlock (Config.initial ()) (.alloc 8) c₁ ∧ Step oneBlock c₁ (.free 4104) c₂ ∧
      4096 ∈ c₂.live ∧ c₂.state.refuses 4096 = true :=
  ⟨oneBlockLive, oneBlockLive.free oneBlock 4104, oneBlockLive_step, .free, by decide +kernel,
    by decide +kernel⟩

end NewM2.HeapGuard
