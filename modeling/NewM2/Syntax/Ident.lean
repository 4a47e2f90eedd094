import Mathlib.Tactic.Common

/-! # Identifiers -/

namespace NewM2

structure Ident where
  name : String
  valid : ∀ c ∈ name.toList, c.isAlphanum ∨ c = '_'
deriving DecidableEq

theorem valid_of_all {s : String} (h : (s.toList.all fun c => c.isAlphanum || c == '_') = true) :
    ∀ c ∈ s.toList, c.isAlphanum ∨ c = '_' := by
  intro c hc
  simpa using List.all_eq_true.1 h c hc

theorem Ident.not_mem {c : Char} (i : Ident) (h : ¬ (c.isAlphanum ∨ c = '_')) : c ∉ i.name.toList :=
  fun hc => h (i.valid c hc)

theorem Ident.ext {i j : Ident} (h : i.name = j.name) : i = j := by
  cases i
  cases j
  cases h
  rfl

end NewM2
