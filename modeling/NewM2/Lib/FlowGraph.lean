import Mathlib.Data.Set.Insert
import Mathlib.Logic.Function.Basic
import Mathlib.Logic.Relation

/-! # Flow graphs under construction

A builder allocates empty blocks, moves between them, appends instructions to the active block and ends
it with a terminator. `Annotated` is the method of inductive assertions for a piece of such a
construction: every block of the piece has an assertion about the state at its start, `pending` blocks are
allocated but not yet filled, and one assertion holds at the end of the active block. Each operation of the
builder has a rule. `Annotated.path`: in every graph that completes the builder, a path through the piece
comes to its end in a state with the assertion there. -/

namespace NewM2.FlowGraph

structure Block (I T : Type*) where
  insts : List I
  /-- A block without a terminator is not finished, or its end is not reached. -/
  term : Option T

structure Builder (I T : Type*) where
  blocks : Nat → Block I T
  numBlocks : Nat
  current : Nat

variable {I T S : Type*}

def Block.new : Block I T := ⟨[], none⟩

namespace Builder
variable (b : Builder I T)

/-- The id of the new block is the `numBlocks` before. -/
def newBlock : Builder I T :=
  { b with blocks := Function.update b.blocks b.numBlocks .new, numBlocks := b.numBlocks + 1 }

def switchTo (id : Nat) : Builder I T := { b with current := id }

def active : Block I T := b.blocks b.current

def isTerminated : Bool := b.active.term.isSome

def setActive (block : Block I T) : Builder I T :=
  { b with blocks := Function.update b.blocks b.current block }

/-- Instructions behind a terminator are dropped. -/
def push (i : I) : Builder I T :=
  if b.isTerminated then b else b.setActive ⟨b.active.insts ++ [i], none⟩

/-- The first terminator wins. -/
def terminate (t : T) : Builder I T :=
  if b.isTerminated then b else b.setActive ⟨b.active.insts, some t⟩

/-- Block and index of the next instruction. -/
def pos : Nat × Nat := (b.current, b.active.insts.length)

@[simp] theorem newBlock_numBlocks : b.newBlock.numBlocks = b.numBlocks + 1 := rfl

@[simp] theorem newBlock_current : b.newBlock.current = b.current := rfl

@[simp] theorem switchTo_numBlocks (id : Nat) : (b.switchTo id).numBlocks = b.numBlocks := rfl

@[simp] theorem switchTo_current (id : Nat) : (b.switchTo id).current = id := rfl

@[simp] theorem push_numBlocks (i : I) : (b.push i).numBlocks = b.numBlocks := by
  unfold push
  split <;> rfl

@[simp] theorem push_current (i : I) : (b.push i).current = b.current := by
  unfold push
  split <;> rfl

@[simp] theorem terminate_numBlocks (t : T) : (b.terminate t).numBlocks = b.numBlocks := by
  unfold terminate
  split <;> rfl

@[simp] theorem terminate_current (t : T) : (b.terminate t).current = b.current := by
  unfold terminate
  split <;> rfl

theorem term_of_open {b : Builder I T} (hopen : b.isTerminated = false) : b.active.term = none := by
  simpa [isTerminated] using hopen

theorem setActive_of_ne {block : Block I T} {i : Nat} (hi : i ≠ b.current) :
    (b.setActive block).blocks i = b.blocks i := Function.update_of_ne hi ..

@[simp] theorem setActive_active (block : Block I T) :
    (b.setActive block).blocks b.current = block := Function.update_self ..

@[simp] theorem isTerminated_setActive (block : Block I T) :
    (b.setActive block).isTerminated = block.term.isSome := by
  rw [isTerminated, active, show (b.setActive block).current = b.current from rfl, setActive_active]

@[simp] theorem isTerminated_terminate (t : T) : (b.terminate t).isTerminated = true := by
  unfold terminate
  split
  · assumption
  · simp

@[simp] theorem isTerminated_push (i : I) : (b.push i).isTerminated = b.isTerminated := by
  unfold push
  split
  · rfl
  · next hopen => simpa using (Bool.eq_false_iff.2 hopen).symm

end Builder

/-! ## Completions -/

/-- The instructions of the builder's blocks are the first ones in `g`, and a block that has its
terminator is as in `g`. -/
def Completes (g : Nat → Block I T) (b : Builder I T) : Prop :=
  ∀ i < b.numBlocks, (b.blocks i).insts <+: (g i).insts ∧ ((b.blocks i).term.isSome → g i = b.blocks i)

section completes
variable {g : Nat → Block I T} {b b' : Builder I T}

theorem Completes.newBlock (h : Completes g b.newBlock) : Completes g b := by
  intro i hi
  have hne : b.newBlock.blocks i = b.blocks i := Function.update_of_ne hi.ne ..
  have := h i (Nat.lt_succ_of_lt hi)
  rwa [hne] at this

theorem Completes.switchTo {id : Nat} (h : Completes g (b.switchTo id)) : Completes g b := h

/-- A change of the active block that keeps its instructions and happens before its terminator. -/
theorem Completes.of_setActive {block : Block I T} (hopen : b.isTerminated = false)
    (hinsts : b.active.insts <+: block.insts) (h : Completes g (b.setActive block)) :
    Completes g b := by
  intro i hi
  have hgi := h i hi
  by_cases heq : i = b.current
  · subst heq
    rw [Builder.setActive_active] at hgi
    refine ⟨hinsts.trans hgi.1, fun hterm => ?_⟩
    exact absurd hterm (by rw [show (b.blocks b.current).term = none from Builder.term_of_open hopen]; simp)
  · rwa [b.setActive_of_ne heq] at hgi

theorem Completes.push {i : I} (h : Completes g (b.push i)) : Completes g b := by
  unfold Builder.push at h
  split at h
  · exact h
  · next hopen => exact h.of_setActive (Bool.eq_false_iff.2 hopen) (List.prefix_append ..)

theorem Completes.terminate {t : T} (h : Completes g (b.terminate t)) : Completes g b := by
  unfold Builder.terminate at h
  split at h
  · exact h
  · next hopen =>
    refine Completes.of_setActive (Bool.eq_false_iff.2 hopen) ?_ h
    exact List.prefix_refl b.active.insts

end completes

/-! ## Paths -/

section paths
variable (exec : I → S → S → Prop) (succs : T → List Nat)

/-- The effect of a list of instructions. -/
def execs : List I → S → S → Prop
  | [], s, s' => s = s'
  | i :: is, s, s' => ∃ m, exec i s m ∧ execs is m s'

theorem execs_append {is js : List I} {s s' : S} :
    execs exec (is ++ js) s s' ↔ ∃ m, execs exec is s m ∧ execs exec js m s' := by
  induction is generalizing s with
  | nil => simp [execs]
  | cons i is ih =>
    simp only [List.cons_append, execs, ih]
    constructor
    · rintro ⟨m, hi, n, his, hjs⟩
      exact ⟨n, ⟨m, hi, his⟩, hjs⟩
    · rintro ⟨n, ⟨m, hi, his⟩, hjs⟩
      exact ⟨m, hi, n, his, hjs⟩

structure Config (S : Type*) where
  block : Nat
  pc : Nat
  state : S

/-- A piece of a graph: the positions where it starts and ends, and the blocks that were allocated for
it. -/
structure Region where
  start : Nat × Nat
  stop : Nat × Nat
  lo : Nat
  hi : Nat
deriving DecidableEq

/-- One step that does not leave the piece. Any successor of a terminator may follow. -/
inductive StepIn (g : Nat → Block I T) (r : Region) : Config S → Config S → Prop
  | inst {c : Config S} {i : I} {s' : S} : (c.block, c.pc) ≠ r.stop → (g c.block).insts[c.pc]? = some i →
      exec i c.state s' → StepIn g r c ⟨c.block, c.pc + 1, s'⟩
  | jump {c : Config S} {t : T} {j : Nat} : (c.block, c.pc) ≠ r.stop → (g c.block).insts[c.pc]? = none →
      (g c.block).term = some t → j ∈ succs t → r.lo ≤ j → j < r.hi → StepIn g r c ⟨j, 0, c.state⟩

/-- A path from the start of the piece to its end. -/
def Path (g : Nat → Block I T) (r : Region) (s s' : S) : Prop :=
  Relation.ReflTransGen (StepIn exec succs g r) ⟨r.start.1, r.start.2, s⟩ ⟨r.stop.1, r.stop.2, s'⟩

variable {exec succs} {g : Nat → Block I T} {r : Region}

/-- A whole block, from its first instruction to a successor. -/
theorem steps_block {k j : Nat} {t : T} {s s' : S} (hstop : k ≠ r.stop.1)
    (hexec : execs exec (g k).insts s s') (ht : (g k).term = some t) (hj : j ∈ succs t) (hlo : r.lo ≤ j)
    (hhi : j < r.hi) : Relation.ReflTransGen (StepIn exec succs g r) ⟨k, 0, s⟩ ⟨j, 0, s'⟩ := by
  have hne : ∀ pc, (k, pc) ≠ r.stop := fun pc heq => hstop (congrArg Prod.fst heq)
  -- what is left of the instructions
  suffices hfrom : ∀ is pc s, (g k).insts.drop pc = is → execs exec is s s' →
      Relation.ReflTransGen (StepIn exec succs g r) ⟨k, pc, s⟩ ⟨j, 0, s'⟩ from hfrom _ 0 s rfl hexec
  intro is
  induction is with
  | nil =>
    intro pc s hdrop hexec
    cases hexec
    have hlen := List.drop_eq_nil_iff.1 hdrop
    have hjump : StepIn exec succs g r ⟨k, pc, s'⟩ ⟨j, 0, s'⟩ :=
      .jump (hne pc) (List.getElem?_eq_none hlen) ht hj hlo hhi
    exact .single hjump
  | cons i is ih =>
    intro pc s hdrop hexec
    obtain ⟨m, hi, his⟩ := hexec
    have hget : (g k).insts[pc]? = some i := by
      rw [← List.head?_drop, hdrop]
      rfl
    have hinst : StepIn exec succs g r ⟨k, pc, s⟩ ⟨k, pc + 1, m⟩ := .inst (hne pc) hget hi
    refine .head hinst (ih (pc + 1) m ?_ his)
    rw [← List.tail_drop, hdrop]
    rfl

end paths

/-! ## Inductive assertions -/

section annotated
variable (exec : I → S → S → Prop) (succs : T → List Nat)

/-- The instructions of block `i` that belong to a piece which starts at `start`. -/
def Builder.code (b : Builder I T) (start : Nat × Nat) (i : Nat) : List I :=
  (b.blocks i).insts.drop (if i = start.1 then start.2 else 0)

/-- The blocks of a piece are that of its start and those from `lo` on. -/
structure Annotated (start : Nat × Nat) (lo : Nat) (Γ : Nat → S → Prop) (pending : Set Nat)
    (b : Builder I T) (P : S → Prop) : Prop where
  start_lt : start.1 < lo
  lo_le : lo ≤ b.numBlocks
  start_le : start.2 ≤ (b.blocks start.1).insts.length
  current : b.current = start.1 ∨ lo ≤ b.current
  current_lt : b.current < b.numBlocks
  fresh : ∀ i ∈ pending, i < b.numBlocks ∧ i ≠ b.current ∧ i ≠ start.1 ∧ b.blocks i = .new
  targets : ∀ i < b.numBlocks, i = start.1 ∨ lo ≤ i → ∀ t, (b.blocks i).term = some t →
    ∀ j ∈ succs t, lo ≤ j → j < b.numBlocks
  flows : ∀ i < b.numBlocks, i = start.1 ∨ lo ≤ i → ∀ t, (b.blocks i).term = some t →
    ∀ s s', Γ i s → execs exec (b.code start i) s s' → ∀ j ∈ succs t, lo ≤ j → Γ j s'
  /-- The end of a block that was left without a terminator is not reached. -/
  stuck : ∀ i < b.numBlocks, i = start.1 ∨ lo ≤ i → (b.blocks i).term = none → i ≠ b.current →
    i ∉ pending → ∀ s s', Γ i s → ¬ execs exec (b.code start i) s s'
  cursor : (b.blocks b.current).term = none →
    ∀ s s', Γ b.current s → execs exec (b.code start b.current) s s' → P s'

variable {exec succs} {start : Nat × Nat} {lo : Nat} {Γ : Nat → S → Prop} {pending : Set Nat}
  {b : Builder I T} {P Q : S → Prop} {i : I} {t : T}

namespace Annotated

/-- Where a piece starts nothing has happened yet. -/
theorem init (b : Builder I T) (hcurrent : b.current < b.numBlocks) (P : S → Prop)
    (Γ : Nat → S → Prop) (hΓ : ∀ s, Γ b.current s → P s) (hopen : b.isTerminated = false) :
    Annotated exec succs b.pos b.numBlocks Γ ∅ b P where
  start_lt := hcurrent
  lo_le := le_rfl
  start_le := le_rfl
  current := .inl rfl
  current_lt := hcurrent
  fresh _ hi := absurd hi (Set.notMem_empty _)
  targets i hi hown t ht := by
    rcases hown with rfl | hlo
    · exact absurd ht (by rw [show (b.blocks b.pos.1).term = none from Builder.term_of_open hopen]; simp)
    · omega
  flows i hi hown t ht := by
    rcases hown with rfl | hlo
    · exact absurd ht (by rw [show (b.blocks b.pos.1).term = none from Builder.term_of_open hopen]; simp)
    · omega
  stuck i hi hown _ hne := by
    rcases hown with rfl | hlo
    · exact absurd rfl hne
    · omega
  cursor _ s s' hs hexec := by
    have hcode : b.code b.pos b.current = [] := by
      simp [Builder.code, Builder.pos, Builder.active]
    rw [hcode] at hexec
    exact hexec ▸ hΓ s hs

theorem mono (h : Annotated exec succs start lo Γ pending b P) (hPQ : ∀ s, P s → Q s) :
    Annotated exec succs start lo Γ pending b Q :=
  { h with cursor := fun hopen s s' hs hexec => hPQ _ (h.cursor hopen s s' hs hexec) }

/-- Behind a terminator anything holds. -/
theorem of_terminated (h : Annotated exec succs start lo Γ pending b P) (hterm : b.isTerminated = true) :
    Annotated exec succs start lo Γ pending b Q :=
  { h with cursor := fun hopen => by simp [Builder.isTerminated, Builder.active, hopen] at hterm }

/-- The active block is replaced by one that starts with the same instructions. -/
theorem setActive {block : Block I T} {is : List I} (h : Annotated exec succs start lo Γ pending b P)
    (hopen : b.isTerminated = false) (hinsts : block.insts = b.active.insts ++ is)
    (htargets : ∀ t, block.term = some t → ∀ j ∈ succs t, lo ≤ j →
      j < b.numBlocks ∧ ∀ s s', P s → execs exec is s s' → Γ j s')
    (hcursor : block.term = none → ∀ s s', P s → execs exec is s s' → Q s') :
    Annotated exec succs start lo Γ pending (b.setActive block) Q := by
  have hterm : (b.blocks b.current).term = none := Builder.term_of_open hopen
  have hother : ∀ j, j ≠ b.current → (b.setActive block).blocks j = b.blocks j := fun j hj =>
    b.setActive_of_ne hj
  have hself : (b.setActive block).blocks b.current = block := b.setActive_active block
  have hcode : ∀ j, j ≠ b.current → (b.setActive block).code start j = b.code start j := fun j hj => by
    rw [Builder.code, hother j hj, Builder.code]
  have hle : (if b.current = start.1 then start.2 else 0) ≤ b.active.insts.length := by
    split
    · next heq => exact (show start.2 ≤ (b.blocks b.current).insts.length from heq ▸ h.start_le)
    · exact Nat.zero_le _
  have hexecs : ∀ s s', Γ b.current s → execs exec ((b.setActive block).code start b.current) s s' →
      ∃ m, P m ∧ execs exec is m s' := by
    intro s s' hs hexec
    rw [Builder.code, hself, hinsts, List.drop_append_of_le_length hle, execs_append] at hexec
    obtain ⟨m, hm, his⟩ := hexec
    exact ⟨m, h.cursor hterm s m hs hm, his⟩
  refine { h with
    start_le := ?_
    fresh := fun j hj => ?_
    targets := fun j hj hown t ht => ?_
    flows := fun j hj hown t ht s s' hs hexec k hk hlo => ?_
    stuck := fun j hj hown ht hne hp s s' hs => ?_
    cursor := fun ht s s' hs hexec => ?_ }
  · by_cases hs : start.1 = b.current
    · rw [hs, hself, hinsts, List.length_append]
      exact Nat.le_add_right_of_le (show start.2 ≤ (b.blocks b.current).insts.length from hs ▸ h.start_le)
    · rw [hother _ hs]
      exact h.start_le
  · obtain ⟨hlt, hne, hs, hnew⟩ := h.fresh j hj
    exact ⟨hlt, hne, hs, (hother j hne).trans hnew⟩
  · by_cases heq : j = b.current
    · rw [heq, hself] at ht
      exact fun k hk hlo => (htargets t ht k hk hlo).1
    · exact h.targets j hj hown t (hother j heq ▸ ht)
  · by_cases heq : j = b.current
    · subst heq
      rw [hself] at ht
      obtain ⟨m, hm, his⟩ := hexecs s s' hs hexec
      exact (htargets t ht k hk hlo).2 m s' hm his
    · rw [hcode j heq] at hexec
      exact h.flows j hj hown t (hother j heq ▸ ht) s s' hs hexec k hk hlo
  · rw [hcode j hne]
    exact h.stuck j hj hown (hother j hne ▸ ht) hne hp s s' hs
  · obtain ⟨m, hm, his⟩ := hexecs s s' hs hexec
    exact hcursor (hself ▸ ht) m s' hm his

theorem push (h : Annotated exec succs start lo Γ pending b P)
    (hPQ : ∀ s s', P s → exec i s s' → Q s') :
    Annotated exec succs start lo Γ pending (b.push i) Q := by
  unfold Builder.push
  split
  · next hterm => exact h.of_terminated hterm
  · next hopen =>
    refine h.setActive (Bool.eq_false_iff.2 hopen) rfl nofun fun _ s s' hs hexec => ?_
    obtain ⟨m, hi, rfl⟩ := hexec
    exact hPQ s m hs hi

theorem terminate (h : Annotated exec succs start lo Γ pending b P)
    (ht : ∀ j ∈ succs t, lo ≤ j → j < b.numBlocks ∧ ∀ s, P s → Γ j s) :
    Annotated exec succs start lo Γ pending (b.terminate t) Q := by
  unfold Builder.terminate
  split
  · next hterm => exact h.of_terminated hterm
  · next hopen =>
    refine h.setActive (Bool.eq_false_iff.2 hopen) (List.append_nil _).symm ?_ nofun
    rintro t' heq j hj hlo
    cases heq
    exact ⟨(ht j hj hlo).1, fun s s' hs hexec => hexec ▸ (ht j hj hlo).2 s hs⟩

/-- The assertions for blocks that do not exist yet are free. -/
theorem congr {Γ' : Nat → S → Prop} (h : Annotated exec succs start lo Γ pending b P)
    (hΓ : ∀ i < b.numBlocks, Γ' i = Γ i) : Annotated exec succs start lo Γ' pending b P := by
  refine { h with
    flows := fun i hi hown t ht s s' hs hexec j hj hlo => ?_
    stuck := fun i hi hown ht hne hp s s' hs => ?_
    cursor := fun ht s s' hs => ?_ }
  · rw [hΓ j (h.targets i hi hown t ht j hj hlo)]
    exact h.flows i hi hown t ht s s' (hΓ i hi ▸ hs) hexec j hj hlo
  · exact h.stuck i hi hown ht hne hp s s' (hΓ i hi ▸ hs)
  · exact h.cursor ht s s' (hΓ _ h.current_lt ▸ hs)

theorem newBlock (h : Annotated exec succs start lo Γ pending b P) :
    Annotated exec succs start lo Γ (insert b.numBlocks pending) b.newBlock P := by
  have hother : ∀ j, j ≠ b.numBlocks → b.newBlock.blocks j = b.blocks j := fun j hj =>
    Function.update_of_ne hj ..
  have hnew : b.newBlock.blocks b.numBlocks = .new := Function.update_self ..
  have hcode : ∀ j, j ≠ b.numBlocks → b.newBlock.code start j = b.code start j := fun j hj => by
    rw [Builder.code, hother j hj, Builder.code]
  have hold : ∀ j t, (b.newBlock.blocks j).term = some t → j ≠ b.numBlocks := by
    rintro j t ht rfl
    rw [hnew] at ht
    cases ht
  have hcur : b.current ≠ b.numBlocks := h.current_lt.ne
  have hstart : start.1 < b.numBlocks := h.start_lt.trans_le h.lo_le
  have hlt : ∀ j, j < b.newBlock.numBlocks → j ≠ b.numBlocks → j < b.numBlocks := fun j hj hne =>
    lt_of_le_of_ne (Nat.lt_succ_iff.1 hj) hne
  refine ⟨h.start_lt, Nat.le_succ_of_le h.lo_le, ?_, h.current, Nat.lt_succ_of_lt h.current_lt,
    fun j hj => ?_, fun j hj hown t ht k hk hlo => ?_, fun j hj hown t ht s s' hs hexec k hk hlo => ?_,
    fun j hj hown ht hne hp s s' hs => ?_, fun ht s s' hs hexec => ?_⟩
  · rw [hother _ hstart.ne]
    exact h.start_le
  · rcases hj with rfl | hj
    · exact ⟨Nat.lt_succ_self _, hcur.symm, hstart.ne', hnew⟩
    · obtain ⟨hlt', hne, hs, hn⟩ := h.fresh j hj
      exact ⟨Nat.lt_succ_of_lt hlt', hne, hs, (hother j hlt'.ne).trans hn⟩
  · have hne := hold j t ht
    exact Nat.lt_succ_of_lt (h.targets j (hlt j hj hne) hown t (hother j hne ▸ ht) k hk hlo)
  · have hne := hold j t ht
    rw [hcode j hne] at hexec
    exact h.flows j (hlt j hj hne) hown t (hother j hne ▸ ht) s s' hs hexec k hk hlo
  · have hnb : j ≠ b.numBlocks := fun heq => hp (.inl heq)
    rw [hcode j hnb]
    exact h.stuck j (hlt j hj hnb) hown (hother j hnb ▸ ht) hne (fun hj => hp (.inr hj)) s s' hs
  · rw [Builder.newBlock_current, hother _ hcur] at ht
    rw [Builder.newBlock_current, hcode _ hcur] at hexec
    exact h.cursor ht s s' hs hexec

end Annotated

/-- No block is active: any pending block may be filled next. -/
def Parked (exec : I → S → S → Prop) (succs : T → List Nat) (start : Nat × Nat) (lo : Nat)
    (Γ : Nat → S → Prop) (pending : Set Nat) (b : Builder I T) : Prop :=
  ∀ id ∈ pending, lo ≤ id → Annotated exec succs start lo Γ (pending \ {id}) (b.switchTo id) (Γ id) ∧
    (b.switchTo id).isTerminated = false

/-- The active block is left with its terminator, or where execution does not come. -/
theorem Annotated.park (h : Annotated exec succs start lo Γ pending b P)
    (hleft : b.isTerminated = true ∨ ∀ s, ¬ P s) : Parked exec succs start lo Γ pending b := by
  intro id hid hlo
  obtain ⟨hlt, -, hs, hnew⟩ := h.fresh id hid
  refine ⟨{ h with
    current := .inr hlo
    current_lt := hlt
    fresh := fun j hj => ?_
    stuck := fun j hj hown ht hjne hp s s' hs' hexec => ?_
    cursor := fun ht s s' hs' hexec => ?_ }, ?_⟩
  · obtain ⟨hjlt, -, hjs, hjnew⟩ := h.fresh j hj.1
    exact ⟨hjlt, hj.2, hjs, hjnew⟩
  · by_cases heq : j = b.current
    · subst heq
      rcases hleft with hterm | hP
      · unfold Builder.isTerminated at hterm
        exact absurd hterm (by rw [show b.active.term = none from ht]; simp)
      · exact hP s' (h.cursor ht s s' hs' hexec)
    · exact h.stuck j hj hown ht heq (fun hj' => hp ⟨hj', hjne⟩) s s' hs' hexec
  · have hcode : (b.switchTo id).code start id = [] := by
      rw [Builder.code, show (b.switchTo id).blocks id = .new from hnew]
      exact List.drop_nil
    rw [show (b.switchTo id).current = id from rfl, hcode] at hexec
    exact hexec ▸ hs'
  · rw [Builder.isTerminated, Builder.active, show (b.switchTo id).blocks (b.switchTo id).current = .new
      from hnew]
    rfl

/-- What is active does not matter. -/
theorem Parked.switchTo {id : Nat} (h : Parked exec succs start lo Γ pending b) :
    Parked exec succs start lo Γ pending (b.switchTo id) := h

theorem Parked.congr {Γ' : Nat → S → Prop} (h : Parked exec succs start lo Γ pending b)
    (hΓ : ∀ i < b.numBlocks, Γ' i = Γ i) : Parked exec succs start lo Γ' pending b := by
  intro id hid hlo
  obtain ⟨hann, hopen⟩ := h id hid hlo
  rw [hΓ id hann.current_lt]
  exact ⟨hann.congr hΓ, hopen⟩

/-! ## Soundness -/

/-- A path through an annotated piece, in any graph that completes it, ends in a state with the assertion
of its end. -/
theorem Annotated.path {g : Nat → Block I T} {s₀ s' : S}
    (h : Annotated exec succs start lo Γ ∅ b P) (hg : Completes g b) (hopen : b.isTerminated = false)
    (hs₀ : Γ start.1 s₀) (hpath : Path exec succs g ⟨start, b.pos, lo, b.numBlocks⟩ s₀ s') : P s' := by
  -- At a position of the piece, the instructions of its block up to it have been executed.
  suffices hinv : ∀ c : Config S, Relation.ReflTransGen
      (StepIn exec succs g ⟨start, b.pos, lo, b.numBlocks⟩) ⟨start.1, start.2, s₀⟩ c →
      c.block < b.numBlocks ∧ (c.block = start.1 ∨ lo ≤ c.block) ∧
      (if c.block = start.1 then start.2 else 0) ≤ c.pc ∧
      (c.block = b.current → c.pc ≤ b.active.insts.length) ∧
      ∃ s, Γ c.block s ∧ execs exec (((g c.block).insts.take c.pc).drop
        (if c.block = start.1 then start.2 else 0)) s c.state by
    obtain ⟨-, -, -, -, s, hs, hexec⟩ := hinv _ hpath
    have hpre : (g b.current).insts.take b.active.insts.length = b.active.insts :=
      (List.prefix_iff_eq_take.1 (hg _ h.current_lt).1).symm
    dsimp only [Builder.pos] at hs hexec
    rw [hpre] at hexec
    exact h.cursor (Builder.term_of_open hopen) s s' hs hexec
  intro c hc
  induction hc with
  | refl =>
    refine ⟨h.start_lt.trans_le h.lo_le, .inl rfl, by simp, fun heq => ?_, s₀, hs₀, ?_⟩
    · have := h.start_le
      dsimp only at heq
      rwa [heq] at this
    · rw [if_pos rfl, List.drop_eq_nil_of_le (by simp)]
      rfl
  | @tail c _ _ hstep ih =>
    obtain ⟨hlt, hown, hle, hpc, s, hs, hexec⟩ := ih
    cases hstep with
    | @inst i m hne hi hm =>
      refine ⟨hlt, hown, Nat.le_succ_of_le hle, fun heq => ?_, s, hs, ?_⟩
      · refine Nat.lt_of_le_of_ne (hpc heq) fun hlen => hne ?_
        dsimp only [Builder.pos]
        rw [heq, hlen]
      · rw [List.take_add_one, hi, Option.toList_some, List.drop_append_of_le_length, execs_append]
        · exact ⟨_, hexec, m, hm, rfl⟩
        · rw [List.length_take_of_le (List.getElem?_eq_some_iff.1 hi).1.le]
          exact hle
    | @jump t j hne hi ht hj hlo hhi =>
      have hlen := List.getElem?_eq_none_iff.1 hi
      rw [List.take_of_length_le hlen] at hexec
      have hpre := (hg _ hlt).1
      have hsealed : (b.blocks c.block).term = some t := by
        cases hterm : (b.blocks c.block).term with
        | some t' =>
          rw [(hg _ hlt).2 (by rw [hterm]; rfl), hterm] at ht
          exact ht
        | none =>
          by_cases hcur : c.block = b.current
          · have hle' := hpre.length_le
            rw [hcur] at hle' hlen
            have := hpc hcur
            refine absurd ?_ hne
            dsimp only [Builder.pos]
            rw [hcur]
            congr 1
            unfold Builder.active at this ⊢
            omega
          · obtain ⟨is, his⟩ := hpre
            rw [← his, List.drop_append_of_le_length, execs_append] at hexec
            · obtain ⟨m, hm, -⟩ := hexec
              exact absurd hm (h.stuck _ hlt hown hterm hcur (Set.notMem_empty _) s m hs)
            · split
              · next heq => exact heq ▸ h.start_le
              · exact Nat.zero_le _
      rw [(hg _ hlt).2 (by rw [hsealed]; rfl)] at hexec
      have hjne : j ≠ start.1 := by
        have := h.start_lt
        dsimp only at hlo
        omega
      refine ⟨hhi, .inr hlo, by simp [hjne], fun _ => Nat.zero_le _, c.state, ?_, ?_⟩
      · exact h.flows _ hlt hown t hsealed s _ hs hexec j hj hlo
      · rw [if_neg hjne]
        rfl

end annotated

end NewM2.FlowGraph
