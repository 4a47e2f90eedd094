import NewM2.Com.Grows
import NewM2.Com.Trace

/-! # Lowering keeps the slots

`Ready` is what the lowering of a statement starts from and comes to again: the piece of the graph under
construction is annotated, and the slots `τ` that hold something to be released are known by no other
name than those of `F`. `Rest` is the same between two blocks. -/

namespace NewM2.Com
open FlowGraph FuncLower

/-- A note about a GUARD holds in a graph: whatever path leads through it is balanced. -/
def RegionOk (g : BlockId → Block Inst Terminator) (r : Region) : Prop :=
  ∀ s s', s.trace = [] → Path Exec Terminator.succs g r s s' → Balanced s'.trace

structure Side (lo : Nat) (τ : List ValueId) (F : List String) (b : FuncLower) : Prop where
  lt : ∀ slot ∈ τ, slot < b.nextReg
  locals_lt : ∀ x slot, b.locals x = some slot → slot < b.nextReg
  bound : ∀ x slot, b.locals x = some slot → slot ∈ τ → x ∈ F
  retry : ∀ target, b.retryTarget = some target → target < lo
  frame : ∀ frame, b.currentLoop = some frame → frame.exitBlock < b.numBlocks
  lo_le : lo ≤ b.numBlocks

/-- The notes so far hold in every graph that completes this one. -/
def Noted (b : FuncLower) : Prop := ∀ r ∈ b.guards, ∀ g, Completes g b.toBuilder → RegionOk g r

structure Ready (start : Nat × Nat) (lo : Nat) (τ : List ValueId) (F : List String)
    (Γ : Nat → State → Prop) (π : Set Nat) (b : FuncLower) (P : State → Prop) : Prop where
  ann : Annotated Exec Terminator.succs start lo Γ π b.toBuilder P
  side : Side lo τ F b
  noted : Noted b

structure Rest (start : Nat × Nat) (lo : Nat) (τ : List ValueId) (F : List String)
    (Γ : Nat → State → Prop) (π : Set Nat) (b : FuncLower) : Prop where
  parked : Parked Exec Terminator.succs start lo Γ π b.toBuilder
  side : Side lo τ F b
  noted : Noted b

variable {start : Nat × Nat} {lo : Nat} {τ σ : List ValueId} {F : List String} {Γ Γ' : Nat → State → Prop}
  {π π' : Set Nat} {b b' : FuncLower} {P Q : State → Prop} {i : Inst} {f : ValueId → Inst}
  {t : Terminator} {k n : Nat}

theorem Side.grows (h : Side lo τ F b) (hg : Grows b b') : Side lo τ F b' where
  lt slot hslot := (h.lt slot hslot).trans_le hg.nextReg
  locals_lt x slot hx := by
    rcases hg.locals x slot hx with hx | ⟨-, hlt⟩
    · exact (h.locals_lt x slot hx).trans_le hg.nextReg
    · exact hlt
  bound x slot hx hslot := by
    rcases hg.locals x slot hx with hx | ⟨hle, -⟩
    · exact h.bound x slot hx hslot
    · exact absurd (h.lt slot hslot) hle.not_gt
  retry target ht := h.retry target (hg.retryTarget ▸ ht)
  frame frame hf := by
    unfold FuncLower.currentLoop at hf
    rw [hg.loopStack] at hf
    exact (h.frame frame hf).trans_le hg.numBlocks
  lo_le := h.lo_le.trans hg.numBlocks

theorem Side.pushLoop {frame : Cfg.LoopFrame} (h : Side lo τ F b) (hframe : frame.exitBlock < b.numBlocks) :
    Side lo τ F (b.pushLoop frame) :=
  { h with frame := fun _ hf => Option.some.inj hf ▸ hframe }

/-- The names that `e` may store into do not stand for the slots. -/
theorem Side.writes {names : List String} (h : Side lo τ F b) (hnames : ∀ x ∈ names, x ∉ F) :
    ∀ slot ∈ τ, slot ∉ b.slots names := by
  intro slot hslot hmem
  obtain ⟨x, hx, hloc⟩ := List.mem_filterMap.1 hmem
  exact hnames x hx (h.bound x slot hloc hslot)

@[simp] theorem evalExpr_numBlocks {e : Action} : (b.evalExpr e).numBlocks = b.numBlocks :=
  b.toBuilder.push_numBlocks _

@[simp] theorem newBlock_numBlocks : b.newBlock.numBlocks = b.numBlocks + 1 := rfl

/-! ## The rules for the operations of lowering -/

namespace Ready

theorem mono (h : Ready start lo τ F Γ π b P) (hPQ : ∀ s, P s → Q s) : Ready start lo τ F Γ π b Q :=
  ⟨h.ann.mono hPQ, h.side, h.noted⟩

theorem congr (h : Ready start lo τ F Γ π b P) (hΓ : ∀ i < b.numBlocks, Γ' i = Γ i) :
    Ready start lo τ F Γ' π b P := ⟨h.ann.congr hΓ, h.side, h.noted⟩

theorem pend (h : Ready start lo τ F Γ π b P) (hπ : ∀ i, i ∈ π ↔ i ∈ π') : Ready start lo τ F Γ π' b P :=
  Set.ext hπ ▸ h

theorem pending_lt (h : Ready start lo τ F Γ π b P) (hid : k ∈ π) : k < b.numBlocks :=
  (h.ann.fresh k hid).1

theorem numBlocks_notMem (h : Ready start lo τ F Γ π b P) : b.numBlocks ∉ π := fun hid =>
  absurd (h.pending_lt hid) (lt_irrefl _)

/-- A new block that is being filled. -/
theorem filled (h : Ready start lo τ F Γ (insert n π \ {n}) b P) (hn : n ∉ π) :
    Ready start lo τ F Γ π b P := Set.insert_sdiff_self_of_notMem hn ▸ h

theorem push (h : Ready start lo τ F Γ π b P) (hPQ : ∀ s s', P s → Exec i s s' → Q s') :
    Ready start lo τ F Γ π (b.push i) Q :=
  ⟨h.ann.push hPQ, h.side.grows grows_push, fun r hr g hg => h.noted r hr g (Completes.push hg)⟩

theorem emit (h : Ready start lo τ F Γ π b P) (hPQ : ∀ s s', P s → Exec (f b.nextReg) s s' → Q s') :
    Ready start lo τ F Γ π (b.emit f) Q :=
  ⟨h.ann.push hPQ, h.side.grows grows_emit, fun r hr g hg => h.noted r hr g (Completes.push hg)⟩

theorem quiet (h : Ready start lo τ F Γ π b (Inv σ)) (hi : Quiet σ i) :
    Ready start lo τ F Γ π (b.push i) (Inv σ) := h.push fun _ _ hs hexec => hs.quiet hi hexec

theorem safePoint (h : Ready start lo τ F Γ π b (Inv σ)) :
    Ready start lo τ F Γ π (if b.mode = .gc then b.push .gcSafePoint else b) (Inv σ) := by
  split
  · exact h.quiet quiet_gcSafePoint
  · exact h

theorem emitQuiet (h : Ready start lo τ F Γ π b (Inv σ)) (hi : ∀ dst, Quiet σ (f dst)) :
    Ready start lo τ F Γ π (b.emit f) (Inv σ) := h.emit fun _ _ hs hexec => hs.quiet (hi _) hexec

theorem evalExpr {e : Action} (h : Ready start lo τ F Γ π b (Inv τ)) (he : ∀ x ∈ e.writes, x ∉ F) :
    Ready start lo τ F Γ π (b.evalExpr e) (Inv τ) :=
  h.emitQuiet fun _ => quiet_eval (h.side.writes he)

theorem newBlock (h : Ready start lo τ F Γ π b P) :
    Ready start lo τ F Γ (insert b.numBlocks π) b.newBlock P :=
  ⟨h.ann.newBlock, h.side.grows grows_newBlock, fun r hr g hg => h.noted r hr g (Completes.newBlock hg)⟩

theorem newBlocks (h : Ready start lo τ F Γ π b P) :
    Ready start lo τ F Γ {i | i ∈ π ∨ b.numBlocks ≤ i ∧ i < b.numBlocks + n} (newBlocks n b) P := by
  induction n generalizing b π with
  | zero => exact h.pend fun i => by simp
  | succ n ih =>
    refine (ih h.newBlock).pend fun i => ?_
    have hn : b.newBlock.numBlocks = b.numBlocks + 1 := rfl
    simp only [Set.mem_ofPred_eq, Set.mem_insert_iff, hn]
    constructor
    · rintro ((rfl | hi) | hi)
      · exact .inr ⟨le_rfl, by omega⟩
      · exact .inl hi
      · exact .inr ⟨by omega, by omega⟩
    · rintro (hi | hi)
      · exact .inl (.inr hi)
      · by_cases heq : i = b.numBlocks
        · exact .inl (.inl heq)
        · exact .inr ⟨by omega, by omega⟩

theorem terminate (h : Ready start lo τ F Γ π b P)
    (ht : ∀ j ∈ t.succs, lo ≤ j → j < b.numBlocks ∧ Γ j = P) :
    Ready start lo τ F Γ π (b.terminate t) Q :=
  ⟨h.ann.terminate fun j hj hlo => ⟨(ht j hj hlo).1, fun _ hs => (ht j hj hlo).2 ▸ hs⟩,
    h.side.grows grows_terminate, fun r hr g hg => h.noted r hr g (Completes.terminate hg)⟩

theorem park (h : Ready start lo τ F Γ π b P) (hleft : b.isTerminated = true ∨ ∀ s, ¬ P s) :
    Rest start lo τ F Γ π b := ⟨h.ann.park hleft, h.side, h.noted⟩

/-- The active block is left behind a terminator. -/
theorem parkTerminate (h : Ready start lo τ F Γ π b P)
    (ht : ∀ j ∈ t.succs, lo ≤ j → j < b.numBlocks ∧ Γ j = P) : Rest start lo τ F Γ π (b.terminate t) :=
  (h.terminate (Q := P) ht).park (.inl (b.toBuilder.isTerminated_terminate t))

/-- Instructions that do not come back. -/
theorem parkNoreturn {g : String} (h : Ready start lo τ F Γ π b P) :
    Rest start lo τ F Γ π (b.push (.noreturn g)) :=
  (h.push (Q := fun _ => False) fun _ _ _ hexec => by cases hexec).park (.inr fun _ hs => hs)

end Ready

namespace Rest

theorem congr (h : Rest start lo τ F Γ π b) (hΓ : ∀ i < b.numBlocks, Γ' i = Γ i) :
    Rest start lo τ F Γ' π b := ⟨h.parked.congr hΓ, h.side, h.noted⟩

theorem pend (h : Rest start lo τ F Γ π b) (hπ : ∀ i, i ∈ π ↔ i ∈ π') : Rest start lo τ F Γ π' b :=
  Set.ext hπ ▸ h

theorem resume (h : Rest start lo τ F Γ π b) (hid : k ∈ π) (hlo : lo ≤ k) (hΓ : Γ k = P) :
    Ready start lo τ F Γ (π \ {k}) (b.switchTo k) P :=
  ⟨hΓ ▸ (h.parked k hid hlo).1, h.side.grows grows_switchTo, h.noted⟩

theorem switchTo (h : Rest start lo τ F Γ π b) : Rest start lo τ F Γ π (b.switchTo k) :=
  ⟨h.parked.switchTo, h.side.grows grows_switchTo, h.noted⟩

theorem isTerminated_switchTo (h : Rest start lo τ F Γ π b) (hid : k ∈ π) (hlo : lo ≤ k) :
    (b.switchTo k).isTerminated = false := (h.parked k hid hlo).2

end Rest

/-- The active block is left for another one. -/
theorem Ready.leave (h : Ready start lo τ F Γ π b P)
    (ht : ∀ j ∈ t.succs, lo ≤ j → j < b.numBlocks ∧ Γ j = P) (hid : k ∈ π) (hlo : lo ≤ k)
    (hΓ : Γ k = Q) : Ready start lo τ F Γ (π \ {k}) ((b.terminate t).switchTo k) Q :=
  (h.parkTerminate ht).resume hid hlo hΓ

theorem targets_goto {x : Nat} (hx : x < b.numBlocks ∧ Γ x = P) :
    ∀ j ∈ (Terminator.goto x).succs, lo ≤ j → j < b.numBlocks ∧ Γ j = P := fun _ hj _ =>
  List.mem_singleton.1 hj ▸ hx

theorem targets_condBr {c x y : Nat} (hx : x < b.numBlocks ∧ Γ x = P)
    (hy : y < b.numBlocks ∧ Γ y = P) :
    ∀ j ∈ (Terminator.condBr c x y).succs, lo ≤ j → j < b.numBlocks ∧ Γ j = P := by
  intro j hj _
  rcases List.mem_cons.1 hj with rfl | hj
  · exact hx
  · exact List.mem_singleton.1 hj ▸ hy

theorem Ready.pushLoop {frame : Cfg.LoopFrame} (h : Ready start lo τ F Γ π b P)
    (hframe : frame.exitBlock < b.numBlocks) : Ready start lo τ F Γ π (b.pushLoop frame) P :=
  ⟨h.ann, h.side.pushLoop hframe, h.noted⟩

theorem Ready.popLoop (h : Ready start lo τ F Γ π b' P) (hside : Side lo τ F b)
    (hg : Grows b b'.popLoop) : Ready start lo τ F Γ π b'.popLoop P :=
  ⟨h.ann, hside.grows hg, h.noted⟩

/-- A name for a slot that was allocated just now. -/
theorem Ready.bindFresh {slot : ValueId} {x : String} (h : Ready start lo τ F Γ π b' P)
    (hside : Side lo τ F b) (hg : Grows b b') (hslot : b.nextReg ≤ slot ∧ slot < b'.nextReg) :
    Ready start lo τ F Γ π (b'.bind x (some slot)) P :=
  ⟨h.ann, hside.grows (grows_bind_fresh hg hslot), h.noted⟩

/-! ## Denoters -/

/-- A slot that stands for nothing yet. -/
structure Unbound (τ : List ValueId) (b : FuncLower) (slot : ValueId) : Prop where
  lt : slot < b.nextReg
  notMem : slot ∉ τ
  locals : ∀ x, b.locals x ≠ some slot

theorem Unbound.grows {slot : ValueId} (h : Unbound τ b slot) (hg : Grows b b') : Unbound τ b' slot where
  lt := h.lt.trans_le hg.nextReg
  notMem := h.notMem
  locals x hx := by
    rcases hg.locals x slot hx with hx | ⟨hle, -⟩
    · exact h.locals x hx
    · exact absurd h.lt hle.not_gt

/-- The denoter of an arm of a GUARD over an interface is the slot of the query. -/
theorem Ready.bindDenoter {slot : ValueId} (h : Ready start lo τ F Γ π b P) (hslot : Unbound τ b slot)
    (d : Option String) :
    Ready start lo (slot :: τ) (d.toList ++ F) Γ π (d.elim b (b.bind · (some slot))) P := by
  have hlt : ∀ slot' ∈ slot :: τ, slot' < b.nextReg := by
    intro slot' hmem
    rcases List.mem_cons.1 hmem with rfl | hmem
    · exact hslot.lt
    · exact h.side.lt slot' hmem
  cases d with
  | none =>
    refine ⟨h.ann, ⟨hlt, h.side.locals_lt, fun x slot' hx hmem => ?_, h.side.retry, h.side.frame,
      h.side.lo_le⟩, h.noted⟩
    rcases List.mem_cons.1 hmem with rfl | hmem
    · exact absurd hx (hslot.locals x)
    · exact h.side.bound x slot' hx hmem
  | some y =>
    have hlocals : ∀ x slot', (b.bind y (some slot)).locals x = some slot' →
        x = y ∧ slot' = slot ∨ b.locals x = some slot' := by
      intro x slot' hx
      by_cases hxy : x = y
      · subst hxy
        rw [show (b.bind x (some slot)).locals x = some slot from Function.update_self ..] at hx
        exact .inl ⟨rfl, (Option.some.inj hx).symm⟩
      · rw [show (b.bind y (some slot)).locals x = b.locals x from Function.update_of_ne hxy ..] at hx
        exact .inr hx
    refine ⟨h.ann, ⟨hlt, fun x slot' hx => ?_, fun x slot' hx hmem => ?_, h.side.retry, h.side.frame,
      h.side.lo_le⟩, h.noted⟩
    · rcases hlocals x slot' hx with ⟨-, rfl⟩ | hx
      · exact hslot.lt
      · exact h.side.locals_lt x slot' hx
    · rcases hlocals x slot' hx with ⟨rfl, -⟩ | hold
      · exact List.mem_cons_self ..
      · rcases List.mem_cons.1 hmem with rfl | hmem
        · exact absurd hold (hslot.locals x)
        · exact List.mem_cons_of_mem _ (h.side.bound x slot' hold hmem)

/-- The denoter of an arm of a GUARD over a class has a slot of its own. -/
theorem Ready.bindView {v : ValueId} (h : Ready start lo τ F Γ π b (Inv τ)) (d : Option String) :
    Ready start lo τ (F.filter (some · ≠ d)) Γ π
      (d.elim b fun x => ((b.emit .alloca).push (.store b.nextReg v)).bind x (some b.nextReg)) (Inv τ) := by
  cases d with
  | none =>
    rw [List.filter_eq_self.2 fun x _ => by simp]
    exact h
  | some y =>
    have hslot : b.nextReg ∉ τ := fun hmem => absurd (h.side.lt _ hmem) (lt_irrefl _)
    have hstore := (h.emitQuiet (f := .alloca) fun _ => quiet_alloca).quiet (quiet_store (v := v) hslot)
    refine ⟨hstore.ann, ⟨hstore.side.lt, fun x slot' hx => ?_, fun x slot' hx hmem => ?_, hstore.side.retry,
      hstore.side.frame, hstore.side.lo_le⟩, hstore.noted⟩
    all_goals
      change Function.update b.locals y (some b.nextReg) x = some slot' at hx
      by_cases hxy : x = y
      · subst hxy
        rw [Function.update_self] at hx
        cases hx
        first | exact Nat.lt_succ_self _ | exact absurd hmem hslot
      · rw [Function.update_of_ne hxy] at hx
        first
          | exact Nat.lt_succ_of_lt (h.side.locals_lt x slot' hx)
          | exact List.mem_filter.2 ⟨h.side.bound x slot' hx hmem, by simpa using hxy⟩

/-- Behind an arm the names are bound as before. -/
theorem Rest.restore {τ' : List ValueId} {F' : List String} {x : Option String} {y : String → Option ValueId}
    (h : Rest start lo τ' F' Γ π b') (hside : Side lo τ F b)
    (hg : Grows b (x.elim b' fun x => b'.bind x (y x))) :
    Rest start lo τ F Γ π (x.elim b' fun x => b'.bind x (y x)) := by
  cases x with
  | none => exact ⟨h.parked, hside.grows hg, h.noted⟩
  | some x => exact ⟨h.parked, hside.grows hg, h.noted⟩

/-! ## Assertions for new blocks -/

/-- Assertions for the blocks from `n` on. -/
def annotate (Γ : Nat → State → Prop) (n : Nat) (A : Nat → State → Prop) (i : Nat) : State → Prop :=
  if i < n then Γ i else A i

theorem annotate_of_lt {A : Nat → State → Prop} (h : k < n) : annotate Γ n A k = Γ k := if_pos h

theorem annotate_of_le {A : Nat → State → Prop} (h : n ≤ k) : annotate Γ n A k = A k := if_neg h.not_gt

theorem Ready.above (h : Ready start lo τ F Γ π b P) (A : Nat → State → Prop) :
    Ready start lo τ F (annotate Γ b.numBlocks A) π b P := h.congr fun _ hi => annotate_of_lt hi

end NewM2.Com
