import Mathlib

/-!
# Computations that may be stopped

`Runs allowed x Q`: the computation `x` returns a result with `Q`, or it is stopped by an error that is
`allowed`. With no error allowed that is total correctness (`Runs.total`). A specification is proved for
any `allowed` that has the error under a condition, so that the condition is all that can stop it. -/

namespace NewM2

section runs
variable {ε α β σ : Type} {allowed allowed' : ε → Prop} {Q Q' : α → Prop}

def Runs (allowed : ε → Prop) (x : Except ε α) (Q : α → Prop) : Prop :=
  match x with
  | .ok a => Q a
  | .error e => allowed e

namespace Runs

theorem ok {a : α} (h : Q a) : Runs allowed (.ok a) Q := h

theorem error {e : ε} (h : allowed e) : Runs allowed (.error e) Q := h

theorem imp {x : Except ε α} (h : Runs allowed x Q) (he : ∀ e, allowed e → allowed' e)
    (hQ : ∀ a, Q a → Q' a) : Runs allowed' x Q' := by
  rcases x with e | a
  · exact he e h
  · exact hQ a h

theorem and {x : Except ε α} (h : Runs allowed x Q) (h' : Runs allowed' x Q') :
    Runs (fun e => allowed e ∧ allowed' e) x fun a => Q a ∧ Q' a := by
  rcases x with e | a
  · exact ⟨h, h'⟩
  · exact ⟨h, h'⟩

theorem mono {x : Except ε α} (h : Runs allowed x Q) (hQ : ∀ a, Q a → Q' a) : Runs allowed x Q' :=
  h.imp (fun _ he => he) hQ

theorem bind {x : Except ε α} {f : α → Except ε β} {Q' : β → Prop} (h : Runs allowed x Q)
    (hf : ∀ a, Q a → Runs allowed (f a) Q') : Runs allowed (x >>= f) Q' := by
  rcases x with e | a
  · exact h
  · exact hf a h

theorem total {x : Except ε α} (h : Runs allowed x Q) (hnone : ∀ e, ¬ allowed e) :
    ∃ a, x = .ok a ∧ Q a := by
  rcases x with e | a
  · exact absurd h (hnone e)
  · exact ⟨a, rfl, h⟩

theorem succeeds {x : Except ε α} (h : Runs (fun _ => False) x Q) : ∃ a, x = .ok a ∧ Q a :=
  h.total fun _ h => h

/-- The rule for a program with a state. -/
theorem bindS {x : StateT σ (Except ε) α} {f : α → StateT σ (Except ε) β} {s : σ}
    {Q : α × σ → Prop} {Q' : β × σ → Prop} (h : Runs allowed (x s) Q)
    (hf : ∀ a s', Q (a, s') → Runs allowed (f a s') Q') : Runs allowed ((x >>= f) s) Q' :=
  bind h fun p hp => hf p.1 p.2 hp

end Runs

/-- A program that returns a result with `Q` and leaves the state as it was. -/
def Reads (allowed : ε → Prop) (x : StateT σ (Except ε) α) (s : σ) (Q : α → Prop) : Prop :=
  Runs allowed (x s) fun q => Q q.1 ∧ q.2 = s

theorem Reads.bind {x : StateT σ (Except ε) α} {f : α → StateT σ (Except ε) β} {s : σ}
    {Q' : β × σ → Prop} (h : Reads allowed x s Q) (hf : ∀ a, Q a → Runs allowed (f a s) Q') :
    Runs allowed ((x >>= f) s) Q' :=
  Runs.bindS h fun a s' hp => by
    have hs : s' = s := hp.2
    rw [hs]
    exact hf a hp.1

theorem bindS_error {x : StateT σ (Except ε) α} {s : σ} {e : ε} (h : x s = .error e)
    (f : α → StateT σ (Except ε) β) : (x >>= f) s = .error e := by
  change x s >>= _ = _
  rw [h]
  rfl

theorem bindS_ok {x : StateT σ (Except ε) α} {s s' : σ} {a : α} (h : x s = .ok (a, s'))
    (f : α → StateT σ (Except ε) β) : (x >>= f) s = f a s' := by
  change x s >>= _ = _
  rw [h]
  rfl

/-! ## A part of the state -/

variable {τ : Type}

/-- A program on the first part. -/
def onFst (x : StateT σ (Except ε) α) : StateT (σ × τ) (Except ε) α := fun s => do
  let (a, s₁) ← x s.1
  .ok (a, s₁, s.2)

/-- A program on the second part. -/
def onSnd (x : StateT τ (Except ε) α) : StateT (σ × τ) (Except ε) α := fun s => do
  let (a, s₂) ← x s.2
  .ok (a, s.1, s₂)

theorem onFst_runs {x : StateT σ (Except ε) α} {s : σ × τ} {Q : α × σ → Prop}
    (h : Runs allowed (x s.1) Q) :
    Runs allowed (onFst x s) fun q => Q (q.1, q.2.1) ∧ q.2.2 = s.2 :=
  h.bind fun _ ha => Runs.ok ⟨ha, rfl⟩

theorem onSnd_error {x : StateT τ (Except ε) α} {s : σ × τ} {e : ε} (h : x s.2 = .error e) :
    onSnd x s = .error e := by
  rw [onSnd, h]
  rfl

theorem onSnd_runs {x : StateT τ (Except ε) α} {s : σ × τ} {Q : α × τ → Prop}
    (h : Runs allowed (x s.2) Q) :
    Runs allowed (onSnd x s) fun q => Q (q.1, q.2.2) ∧ q.2.1 = s.1 :=
  h.bind fun _ ha => Runs.ok ⟨ha, rfl⟩

end runs
end NewM2
