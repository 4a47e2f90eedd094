import Mathlib

/-!
# The current exception (`newm2-runtime/src/exceptions.rs`, `newm2-ir/src/lower.rs`)

A thread runs protected regions: the wrapper that `lower_protected_wrapper` makes runs its body under
`nm2_run_protected`, then the EXCEPT or the FINALLY part. The frames on the stack are what is being
executed of each wrapper, innermost first. One slot, `current`, holds the exception of the handler in
execution; `nm2_run_protected` fills it and the end of a handler empties it, whatever it held when
the region began. So a handler keeps its exception as long as no handler nested in it comes to its
end.

Procedures without a region, and the statements that neither raise nor leave a part, are not on the
stack; a thread whose exception no region catches takes no further step, nor does one that panics.
-/

namespace NewM2.Exceptions

/-- `ExceptionPayload`. -/
structure Payload where
  source : UInt64
  number : UInt32
  message : List UInt8
deriving Repr, DecidableEq

/-- A protected region has an EXCEPT part, perhaps with a FINALLY part behind it, or only a FINALLY
part. -/
inductive Region
  | except (hasFinally : Bool)
  | finallyOnly
deriving Repr, DecidableEq

inductive Frame
  /-- The protected statements, under `nm2_run_protected`. -/
  | body (r : Region)
  /-- The EXCEPT part, because of `e`. -/
  | handler (r : Region) (e : Payload)
  /-- The FINALLY part, because of an exception or after all went well. -/
  | finalizer (e : Option Payload)
deriving Repr, DecidableEq

structure State where
  /-- `CURRENT`. -/
  current : Option Payload
  stack : List Frame
deriving Repr, DecidableEq

/-! ## The runtime -/

/-- The block `protect_join`: the FINALLY part if there is one, then the wrapper returns. -/
def joined (r : Region) (rest : List Frame) : List Frame :=
  match r with
  | .except false => rest
  | .except true | .finallyOnly => .finalizer none :: rest

/-- Where the wrapper goes on when its body was left by `e`: a source of 0 says that it was not. -/
def caught (r : Region) (e : Payload) (rest : List Frame) : List Frame :=
  if e.source = 0 then joined r rest
  else
    match r with
    | .except _ => .handler r e :: rest
    | .finallyOnly => .finalizer (some e) :: rest

/-- The innermost region whose body is being run, and the frames outside it. -/
def unwind : List Frame → Option (Region × List Frame)
  | [] => none
  | .body r :: rest => some (r, rest)
  | _ :: rest => unwind rest

/-- A panic with `e`, as far as the `nm2_run_protected` that catches it. -/
def throw (e : Payload) (stack : List Frame) : Option State := do
  let (r, rest) ← unwind stack
  return ⟨some e, caught r e rest⟩

/-- What `nm2_reraise` takes to panic with; without a current exception its `expect` panics. -/
def nm2Reraise (s : State) : Option (Payload × State) :=
  s.current.map fun e => (e, { s with current := none })

/-- `nm2_exception_handled`. -/
def nm2ExceptionHandled (s : State) : State := { s with current := none }

/-! ## The thread -/

inductive Event
  /-- Call a wrapper. -/
  | enter (r : Region)
  /-- `nm2_raise` and its kin. -/
  | raise (e : Payload)
  /-- A RAISE without operand. -/
  | reraise
  /-- Come to the end of the innermost part. -/
  | complete
  /-- RETURN from the innermost part. -/
  | return_
  | retry
deriving Repr, DecidableEq

def step (s : State) : Event → Option State
  | .enter r => some { s with stack := .body r :: s.stack }
  | .raise e => throw e s.stack
  | .reraise => do
    let (e, s) ← nm2Reraise s
    throw e s.stack
  | .complete =>
    match s.stack with
    | .body r :: rest => some { s with stack := joined r rest }
    | .handler r _ :: rest => some { nm2ExceptionHandled s with stack := joined r rest }
    | .finalizer none :: rest => some { s with stack := rest }
    | .finalizer (some _) :: rest => do
      let (e, _) ← nm2Reraise s
      throw e rest
    | [] => none
  | .return_ =>
    match s.stack with
    | .body r :: rest => some { s with stack := joined r rest }
    -- neither a handler nor a finalizer is done with the exception when it returns
    | .handler _ _ :: rest | .finalizer _ :: rest => some { s with stack := rest }
    | [] => none
  | .retry =>
    match s.stack with
    | .handler r _ :: rest => some { nm2ExceptionHandled s with stack := .body r :: rest }
    | _ => none

/-- A thread that has raised nothing and is in no region. -/
def start : State := ⟨none, []⟩

/-! ## The exception of the handler in execution -/

/-- The exception because of which a part is executed. -/
def Frame.cause : Frame → Option Payload
  | .body _ => none
  | .handler _ e => some e
  | .finalizer e => e

/-- The exception because of which the innermost handler, or FINALLY part of a raise, is in
execution. -/
def active (stack : List Frame) : Option Payload := stack.findSome? Frame.cause

/-- `current` is the exception of the handler in execution. -/
def Kept (s : State) : Prop := ∀ e, active s.stack = some e → s.current = some e

/-- The innermost part of the stack does not lose the exception of a handler around it. -/
def Keeps (s : State) : Event → Prop
  | .raise e => e.source = 0 → ∀ r rest, unwind s.stack = some (r, rest) →
      ∀ e', active rest = some e' → e' = e
  | .complete | .retry =>
    match s.stack with
    | .handler _ _ :: rest => active rest = none
    | _ => True
  | .return_ =>
    match s.stack with
    | .handler _ e :: rest | .finalizer (some e) :: rest => ∀ e', active rest = some e' → e' = e
    | _ => True
  | _ => True

/-- Only an exception with a source is handled. -/
def Sourced (stack : List Frame) : Prop := ∀ f ∈ stack, ∀ e, f.cause = some e → e.source ≠ 0

section
variable {s s' : State} {stack rest : List Frame} {r : Region} {e : Payload} {ev : Event}

@[simp] theorem active_joined : active (joined r rest) = active rest := by
  unfold joined
  split <;> rfl

theorem active_caught (h : e.source ≠ 0) : active (caught r e rest) = some e := by
  unfold caught
  rw [if_neg h]
  split <;> rfl

theorem throw_eq_some :
    throw e stack = some s' ↔ ∃ r rest, unwind stack = some (r, rest) ∧ s' = ⟨some e, caught r e rest⟩ := by
  unfold throw
  rcases unwind stack with - | ⟨r, rest⟩
  · simp
  · simp [eq_comm]

/-- Outside every handler there is none further out. -/
theorem active_of_unwind (h : unwind stack = some (r, rest)) (hactive : active stack = none) :
    active rest = none := by
  induction stack with
  | nil => cases h
  | cons f frames ih =>
    cases f with
    | body =>
      cases h
      exact hactive
    | handler => cases hactive
    | finalizer e =>
      cases e with
      | none => exact ih h hactive
      | some e => cases hactive

theorem mem_of_unwind (h : unwind stack = some (r, rest)) : rest ⊆ stack := by
  induction stack with
  | nil => cases h
  | cons f frames ih =>
    cases f with
    | body =>
      cases h
      exact List.subset_cons_self _ _
    | handler => exact fun g hg => List.mem_cons_of_mem _ (ih h hg)
    | finalizer => exact fun g hg => List.mem_cons_of_mem _ (ih h hg)

/-- A raise with a source makes its exception the current one. -/
theorem kept_throw (h : e.source ≠ 0) (hthrow : throw e stack = some s') : Kept s' := by
  obtain ⟨r, rest, -, rfl⟩ := throw_eq_some.1 hthrow
  intro e' he'
  rw [active_caught h] at he'
  exact he'

/-- A raise without one is lost on the region that catches it. -/
theorem kept_throw_iff (hthrow : throw e stack = some s') :
    Kept s' ↔ (e.source = 0 → ∀ r rest, unwind stack = some (r, rest) →
      ∀ e', active rest = some e' → e' = e) := by
  by_cases h : e.source = 0
  · obtain ⟨r, rest, hunwind, rfl⟩ := throw_eq_some.1 hthrow
    simp only [h, true_imp_iff, hunwind, Option.some.injEq, Prod.mk.injEq, and_imp, Kept, caught,
      if_true, active_joined]
    constructor
    · rintro hk _ _ rfl rfl e' he'
      exact (hk e' he').symm
    · exact fun hk e' he' => (hk r rest rfl rfl e' he').symm
  · exact ⟨fun _ h0 => absurd h0 h, fun _ => kept_throw h hthrow⟩

/-- The handler in execution re-raises its own exception. -/
theorem Kept.reraise (h : Kept s) (he : active s.stack = some e) :
    nm2Reraise s = some (e, { s with current := none }) := by
  rw [nm2Reraise, h e he]
  rfl

theorem Sourced.active (h : Sourced stack) (he : active stack = some e) : e.source ≠ 0 := by
  obtain ⟨f, hf, hcause⟩ := List.exists_of_findSome?_eq_some he
  exact h f hf e hcause

theorem Sourced.cons {f : Frame} (h : Sourced stack) (hf : ∀ e, f.cause = some e → e.source ≠ 0) :
    Sourced (f :: stack) :=
  List.forall_mem_cons.2 ⟨hf, h⟩

theorem Sourced.tail {f : Frame} (h : Sourced (f :: stack)) : Sourced stack :=
  (List.forall_mem_cons.1 h).2

theorem Sourced.joined (h : Sourced rest) : Sourced (joined r rest) := by
  unfold Exceptions.joined
  split
  · exact h
  · exact h.cons fun _ h => nomatch h
  · exact h.cons fun _ h => nomatch h

theorem Sourced.throw (h : Sourced stack) (hthrow : throw e stack = some s') : Sourced s'.stack := by
  obtain ⟨r, rest, hunwind, rfl⟩ := throw_eq_some.1 hthrow
  have hrest : Sourced rest := fun f hf => h f (mem_of_unwind hunwind hf)
  unfold caught
  split_ifs with h0
  · exact hrest.joined
  · split
    · exact hrest.cons fun _ he => by cases he; exact h0
    · exact hrest.cons fun _ he => by cases he; exact h0

theorem Sourced.step (h : Sourced s.stack) (hstep : step s ev = some s') : Sourced s'.stack := by
  unfold Exceptions.step at hstep
  split at hstep
  · cases hstep
    exact h.cons fun _ h => nomatch h
  · exact h.throw hstep
  · obtain ⟨⟨e, s₁⟩, he, hthrow⟩ := Option.bind_eq_some_iff.1 hstep
    obtain ⟨e', -, heq⟩ := Option.map_eq_some_iff.1 he
    cases heq
    exact Sourced.throw h hthrow
  · split at hstep
    all_goals rename_i hstack
    all_goals rw [hstack] at h
    · cases hstep
      exact h.tail.joined
    · cases hstep
      exact h.tail.joined
    · cases hstep
      exact h.tail
    · obtain ⟨_, -, hthrow⟩ := Option.bind_eq_some_iff.1 hstep
      exact h.tail.throw hthrow
    · cases hstep
  · split at hstep
    all_goals rename_i hstack
    all_goals rw [hstack] at h
    · cases hstep
      exact h.tail.joined
    · cases hstep
      exact h.tail
    · cases hstep
      exact h.tail
    · cases hstep
  · split at hstep
    · rename_i hstack
      rw [hstack] at h
      cases hstep
      exact h.tail.cons fun _ h => nomatch h
    · cases hstep

theorem nm2Reraise_eq_some {s₁ : State} (h : nm2Reraise s = some (e, s₁)) :
    s.current = some e ∧ s₁.stack = s.stack := by
  obtain ⟨e', he, heq⟩ := Option.map_eq_some_iff.1 h
  cases heq
  exact ⟨he, rfl⟩

/-- A re-raise keeps `current` right: in a handler it raises an exception with a source, elsewhere it
reaches no handler. -/
theorem kept_rethrow (h : Kept s) (hs : Sourced s.stack) (he : s.current = some e)
    (hthrow : throw e s.stack = some s') : Kept s' := by
  rcases hactive : active s.stack with - | e'
  · refine (kept_throw_iff hthrow).2 fun _ r rest hunwind e' he' => ?_
    rw [active_of_unwind hunwind hactive] at he'
    cases he'
  · obtain rfl : e = e' := Option.some_injective _ (he.symm.trans (h e' hactive))
    exact kept_throw (hs.active hactive) hthrow

/-- The slot emptied is right outside every handler. -/
theorem none_iff_kept : active rest = none ↔ ∀ e, active rest = some e → none = some e := by
  rcases active rest with - | e
  · simp
  · simp

/-- The exception left behind is right where it is that of the handler around. -/
theorem same_iff_kept (h : s.current = some e) :
    (∀ e', active rest = some e' → e' = e) ↔ ∀ e', active rest = some e' → s.current = some e' := by
  rw [h]
  simp only [Option.some.injEq, eq_comm]

/-- One step keeps `current` right exactly when it loses no exception of a handler further out. -/
theorem keeps_iff_kept (h : Kept s) (hs : Sourced s.stack) (hstep : step s ev = some s') :
    Keeps s ev ↔ Kept s' := by
  rcases s with ⟨current, stack⟩
  cases ev with
  | enter r =>
    cases hstep
    exact ⟨fun _ => h, fun _ => trivial⟩
  | raise e => exact (kept_throw_iff hstep).symm
  | reraise =>
    obtain ⟨⟨e, s₁⟩, he, hthrow⟩ := Option.bind_eq_some_iff.1 hstep
    obtain ⟨he, hstack⟩ := nm2Reraise_eq_some he
    simp only [hstack] at hthrow
    exact ⟨fun _ => kept_rethrow h hs he hthrow, fun _ => trivial⟩
  | complete =>
    rcases stack with - | ⟨r | ⟨r, e⟩ | (- | e), rest⟩
    · cases hstep
    · cases hstep
      exact ⟨fun _ e he => h e (show active rest = some e from active_joined.symm.trans he),
        fun _ => trivial⟩
    · cases hstep
      simp only [Keeps, Kept, nm2ExceptionHandled, active_joined]
      exact none_iff_kept
    · cases hstep
      exact ⟨fun _ => h, fun _ => trivial⟩
    · obtain ⟨⟨e', s₁⟩, he, hthrow⟩ := Option.bind_eq_some_iff.1 hstep
      obtain ⟨he, -⟩ := nm2Reraise_eq_some he
      obtain rfl : e' = e := Option.some_injective _ (he.symm.trans (h e rfl))
      exact ⟨fun _ => kept_throw (hs.active rfl) hthrow, fun _ => trivial⟩
  | return_ =>
    rcases stack with - | ⟨r | ⟨r, e⟩ | (- | e), rest⟩
    · cases hstep
    · cases hstep
      exact ⟨fun _ e he => h e (show active rest = some e from active_joined.symm.trans he),
        fun _ => trivial⟩
    · cases hstep
      exact same_iff_kept (h e rfl)
    · cases hstep
      exact ⟨fun _ => h, fun _ => trivial⟩
    · cases hstep
      exact same_iff_kept (h e rfl)
  | retry =>
    rcases stack with - | ⟨r | ⟨r, e⟩ | e, rest⟩
    · cases hstep
    · cases hstep
    · cases hstep
      exact none_iff_kept
    · cases hstep

/-- Events, none of which loses the exception of a handler. -/
abbrev KeepingRun : State → State → Prop :=
  Relation.ReflTransGen fun s s' => ∃ ev, step s ev = some s' ∧ Keeps s ev

theorem KeepingRun.inv (hrun : KeepingRun start s) : Kept s ∧ Sourced s.stack := by
  induction hrun with
  | refl => exact ⟨fun _ h => (nomatch h), fun _ h => nomatch h⟩
  | tail _ hstep ih =>
    obtain ⟨ev, hstep, hkeeps⟩ := hstep
    exact ⟨(keeps_iff_kept ih.1 ih.2 hstep).1 hkeeps, ih.2.step hstep⟩

/-- As long as no handler inside another comes to its end, every handler finds its own exception
current and re-raises it; the first event that is not so leaves a handler without it. -/
theorem handler_keeps_current (s : State) (hrun : KeepingRun start s) :
    (∀ e, active s.stack = some e →
      s.current = some e ∧ nm2Reraise s = some (e, { s with current := none })) ∧
    ∀ ev s', step s ev = some s' →
      (Keeps s ev ↔ ∀ e, active s'.stack = some e → s'.current = some e) := by
  obtain ⟨hkept, hsourced⟩ := hrun.inv
  exact ⟨fun e he => ⟨hkept e he, hkept.reraise he⟩,
    fun ev s' hstep => keeps_iff_kept hkept hsourced hstep⟩

/-- In the handler of a region entered outside every other. -/
theorem handler_keeps_current_outer :
    nm2Reraise ⟨some ⟨1, 0, []⟩, [.handler (.except false) ⟨1, 0, []⟩]⟩ =
      some (⟨1, 0, []⟩, ⟨none, [.handler (.except false) ⟨1, 0, []⟩]⟩) := by
  have hrun : KeepingRun start ⟨some ⟨1, 0, []⟩, [.handler (.except false) ⟨1, 0, []⟩]⟩ :=
    .tail (.single ⟨.enter (.except false), rfl, trivial⟩) ⟨.raise ⟨1, 0, []⟩, rfl, nofun⟩
  exact ((handler_keeps_current _ hrun).1 _ rfl).2

/-- The events one after another. -/
def run (s : State) : List Event → Option State
  | [] => some s
  | ev :: events => do run (← step s ev) events

/-- A handler raises 2 in a region of its own and handles it; then its own exception 1 is gone. -/
theorem current_lost : ∃ s,
    run start [.enter (.except false), .raise ⟨1, 0, []⟩, .enter (.except false),
      .raise ⟨2, 0, []⟩, .complete] = some s ∧
    active s.stack = some ⟨1, 0, []⟩ ∧ s.current = none ∧ nm2Reraise s = none :=
  ⟨⟨none, [.handler (.except false) ⟨1, 0, []⟩]⟩, rfl, rfl, rfl, rfl⟩

end

end NewM2.Exceptions
