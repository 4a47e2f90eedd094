import NewM2.Com.Guard

/-! # What queries and releases leave outstanding

`outstanding` reads a trace as brackets: a QueryInterface opens with the pointer that it stored, a release
closes the query that was opened last. `Balanced` is what the lowering of a GUARD is for. -/

namespace NewM2.Com
open FlowGraph

/-- The pointers that are still to be released, starting with those of `σ`; `none` when a release takes
another pointer than that of the last query. -/
def outstanding : List Event → List Word → Option (List Word)
  | [], σ => some σ
  | .queryInterface _ p :: t, σ => outstanding t (p :: σ)
  | .release p :: t, q :: σ => if p = q then outstanding t σ else none
  | .release _ :: _, [] => none

/-- What the calls of `nm2_com_release` got. -/
def released (t : List Event) : List Word :=
  t.filterMap fun
    | .release p => some p
    | .queryInterface _ _ => none

/-- What the calls of `nm2_com_query_interface` stored. -/
def stored (t : List Event) : List Word :=
  t.filterMap fun
    | .queryInterface _ p => some p
    | .release _ => none

def succeeded (hr : Word) : Bool := hr &&& 0x80000000 == 0

/-- What the successful and partially successful queries stored. -/
def acquired (t : List Event) : List Word :=
  t.filterMap fun
    | .queryInterface hr p => if succeeded hr || p != 0 then some p else none
    | .release _ => none

/-- Every query has its release, in the order of brackets; but for calls with NIL, these are the releases
of what successful and partially successful queries stored. -/
structure Balanced (t : List Event) : Prop where
  brackets : outstanding t [] = some []
  calls : (released t).Perm (stored t)
  references : ((released t).filter (· ≠ 0)).Perm ((acquired t).filter (· ≠ 0))

theorem outstanding_append (t t' : List Event) (σ : List Word) :
    outstanding (t ++ t') σ = (outstanding t σ).bind (outstanding t') := by
  fun_induction outstanding t σ with
  | case1 σ => rfl
  | case2 σ hr p t ih => exact ih
  | case3 t q σ ih => simpa [outstanding] using ih
  | case4 p t q σ hne => simp [outstanding, hne]
  | case5 p t => rfl

theorem released_perm {t : List Event} {σ σ' : List Word} (h : outstanding t σ = some σ') :
    (released t ++ σ').Perm (stored t ++ σ) := by
  fun_induction outstanding t σ with
  | case1 σ => exact Option.some.inj h ▸ .refl _
  | case2 σ hr p t ih => exact (ih h).trans List.perm_middle
  | case3 t q σ ih => exact ((ih h).cons q).trans List.perm_middle.symm
  | case4 p t q σ hne => cases h
  | case5 p t => cases h

/-- A query that stored something is successful or partially successful. -/
theorem filter_stored (t : List Event) :
    (stored t).filter (· ≠ 0) = (acquired t).filter (· ≠ 0) := by
  induction t with
  | nil => rfl
  | cons e t ih =>
    cases e with
    | release p => exact ih
    | queryInterface hr p =>
      change (p :: stored t).filter (· ≠ 0) = _
      by_cases hp : p = 0
      · subst hp
        have hacq : acquired (.queryInterface hr 0 :: t) =
            if succeeded hr then 0 :: acquired t else acquired t := by
          cases hs : succeeded hr <;> simp [acquired, hs]
        rw [hacq]
        split <;> simpa using ih
      · have hacq : acquired (.queryInterface hr p :: t) = p :: acquired t := by
          unfold acquired
          refine List.filterMap_cons_some (if_pos ?_)
          rw [Bool.or_eq_true]
          exact .inr (bne_iff_ne.2 hp)
        rw [hacq, List.filter_cons_of_pos (by simpa using hp), List.filter_cons_of_pos (by simpa using hp),
          ih]

theorem Balanced.of_brackets {t : List Event} (h : outstanding t [] = some []) : Balanced t := by
  have hperm := released_perm h
  rw [List.append_nil, List.append_nil] at hperm
  exact ⟨h, hperm, filter_stored t ▸ hperm.filter _⟩

/-! ## The assertion of the proof -/

/-- The slots `τ` hold what is outstanding, innermost first. -/
def Inv (τ : List ValueId) (s : State) : Prop := outstanding s.trace [] = some (τ.map s.mem)

/-- The instruction leaves the slots alone and is none of the two calls. -/
def Quiet (τ : List ValueId) (i : Inst) : Prop :=
  ∀ s s', Exec i s s' → s'.trace = s.trace ∧ ∀ slot ∈ τ, s'.mem slot = s.mem slot

variable {τ : List ValueId} {s s' : State} {slot ppv : ValueId} {i : Inst}

theorem Inv.quiet (h : Inv τ s) (hi : Quiet τ i) (hexec : Exec i s s') : Inv τ s' := by
  obtain ⟨htrace, hmem⟩ := hi s s' hexec
  rw [Inv, htrace, List.map_congr_left hmem]
  exact h

theorem Inv.queryInterface {dst this iid : ValueId} (h : Inv τ s) (hslot : slot ∉ τ)
    (hexec : Exec (.queryInterface dst this iid slot) s s') : Inv (slot :: τ) s' := by
  cases hexec with
  | queryInterface hr p =>
    have hmap : τ.map (Function.update s.mem slot p) = τ.map s.mem :=
      List.map_congr_left fun x hx => Function.update_of_ne (fun heq : x = slot => hslot (heq ▸ hx)) ..
    change outstanding (s.trace ++ [.queryInterface hr p]) [] =
      some (Function.update s.mem slot p slot :: τ.map (Function.update s.mem slot p))
    rw [outstanding_append, h, hmap, Function.update_self]
    rfl

theorem Inv.release {dst : ValueId} (h : Inv (slot :: τ) s) (hppv : s.regs ppv = s.mem slot)
    (hexec : Exec (.release dst ppv) s s') : Inv τ s' := by
  cases hexec with
  | release count =>
    change outstanding (s.trace ++ [.release (s.regs ppv)]) [] = some (τ.map s.mem)
    rw [outstanding_append, h, hppv]
    exact if_pos rfl

/-- Instructions that change registers only. -/
theorem Quiet.of_mem (h : ∀ s s', Exec i s s' → s'.trace = s.trace ∧ s'.mem = s.mem) : Quiet τ i :=
  fun s s' hexec => ⟨(h s s' hexec).1, fun slot _ => congrFun (h s s' hexec).2 slot⟩

theorem quiet_alloca {dst : ValueId} : Quiet τ (.alloca dst) :=
  .of_mem fun _ _ h => by cases h; exact ⟨rfl, rfl⟩

theorem quiet_const {dst : ValueId} {v : Word} : Quiet τ (.const dst v) :=
  .of_mem fun _ _ h => by cases h; exact ⟨rfl, rfl⟩

theorem quiet_globalRef {dst : ValueId} : Quiet τ (.globalRef dst) :=
  .of_mem fun _ _ h => by cases h; exact ⟨rfl, rfl⟩

theorem quiet_load {dst ptr : ValueId} : Quiet τ (.load dst ptr) :=
  .of_mem fun _ _ h => by cases h; exact ⟨rfl, rfl⟩

theorem quiet_binary {dst lhs rhs : ValueId} {op : BinOp} : Quiet τ (.binary dst op lhs rhs) :=
  .of_mem fun _ _ h => by cases h; exact ⟨rfl, rfl⟩

theorem quiet_compute {dst : ValueId} {uses : List ValueId} : Quiet τ (.compute dst uses) :=
  .of_mem fun _ _ h => by cases h; exact ⟨rfl, rfl⟩

theorem quiet_call {f : String} {dst : ValueId} {args : List ValueId} : Quiet τ (.call f dst args) :=
  .of_mem fun _ _ h => by cases h; exact ⟨rfl, rfl⟩

theorem quiet_gcSafePoint : Quiet τ .gcSafePoint :=
  .of_mem fun _ _ h => by cases h; exact ⟨rfl, rfl⟩

theorem quiet_noreturn {f : String} : Quiet τ (.noreturn f) := fun _ _ h => by cases h

theorem quiet_store {ptr v : ValueId} (hptr : ptr ∉ τ) : Quiet τ (.store ptr v) := by
  intro s s' h
  cases h
  exact ⟨rfl, fun slot hslot => Function.update_of_ne (fun heq : slot = ptr => hptr (heq ▸ hslot)) ..⟩

theorem quiet_eval {dst e : Nat} {writes : List ValueId} (hwrites : ∀ slot ∈ τ, slot ∉ writes) :
    Quiet τ (.eval dst e writes) := by
  intro s s' h
  cases h with
  | eval v mem hmem => exact ⟨rfl, fun slot hslot => hmem slot (hwrites slot hslot)⟩

theorem quiet_simple {a : Nat} {writes : List ValueId} (hwrites : ∀ slot ∈ τ, slot ∉ writes) :
    Quiet τ (.simple a writes) := by
  intro s s' h
  cases h with
  | simple mem hmem => exact ⟨rfl, fun slot hslot => hmem slot (hwrites slot hslot)⟩

/-! ## One way that execution may go -/

/-- A query returns `hr` and stores `p`; what else an instruction is free to choose is 0. -/
def Inst.run (hr p : Word) : Inst → State → State
  | .alloca _, s | .simple _ _, s | .noreturn _, s | .gcSafePoint, s => s
  | .const dst val, s => s.setReg dst val
  | .globalRef dst, s | .compute dst _, s | .eval dst _ _, s | .call _ dst _, s => s.setReg dst 0
  | .load dst ptr, s => s.setReg dst (s.mem ptr)
  | .store ptr val, s => s.setMem ptr (s.regs val)
  | .binary dst op lhs rhs, s => s.setReg dst (op.apply (s.regs lhs) (s.regs rhs))
  | .queryInterface dst _ _ out, s => ((s.setMem out p).setReg dst hr).add (.queryInterface hr p)
  | .release dst this, s => (s.setReg dst 0).add (.release (s.regs this))

def Inst.isNoreturn : Inst → Bool
  | .noreturn _ => true
  | _ => false

theorem Inst.exec_run {hr p : Word} : ∀ {i : Inst}, i.isNoreturn = false → Exec i s (i.run hr p s)
  | .alloca _, _ => .alloca
  | .const _ _, _ => .const
  | .globalRef _, _ => .globalRef 0
  | .load _ _, _ => .load
  | .store _ _, _ => .store
  | .binary _ _ _ _, _ => .binary
  | .compute _ _, _ => .compute 0
  | .eval _ _ _, _ => .eval 0 s.mem fun _ _ => rfl
  | .simple _ _, _ => .simple s.mem fun _ _ => rfl
  | .call _ _ _, _ => .call 0
  | .queryInterface _ _ _ _, _ => .queryInterface hr p
  | .release _ _, _ => .release 0
  | .gcSafePoint, _ => .gcSafePoint

def runAll (hr p : Word) (is : List Inst) (s : State) : State := is.foldl (fun s i => i.run hr p s) s

theorem execs_runAll {hr p : Word} {is : List Inst} (h : is.all (!·.isNoreturn) = true) :
    execs Exec is s (runAll hr p is s) := by
  induction is generalizing s with
  | nil => exact rfl
  | cons i is ih =>
    rw [List.all_cons, Bool.and_eq_true] at h
    exact ⟨i.run hr p s, Inst.exec_run (by simpa using h.1), ih h.2⟩

end NewM2.Com
