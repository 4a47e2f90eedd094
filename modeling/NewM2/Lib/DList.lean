import Mathlib.Data.List.Nodup
import Mathlib.Tactic.Common

/-!
# Doubly linked lists

`DChain next prev p h l`: following `next` from `h` visits the nodes of `l` and then the null link `0`,
and each node's `prev` is the node before it; that of the first is `p`. The two edits are `cons` (push a
node in front) and `remove` (bypass a node in both directions). -/

namespace NewM2

def DChain (next prev : Nat → Nat) : Nat → Nat → List Nat → Prop
  | _, h, [] => h = 0
  | p, h, x :: l => h = x ∧ x ≠ 0 ∧ prev x = p ∧ DChain next prev x (next x) l

namespace DChain
variable {next next' prev prev' : Nat → Nat} {p h b x : Nat} {l l₁ l₂ : List Nat}

theorem ne_zero (hc : DChain next prev p h l) : ∀ y ∈ l, y ≠ 0 := by
  induction l generalizing p h with
  | nil => exact fun y hy => absurd hy List.not_mem_nil
  | cons x l ih =>
    obtain ⟨-, hx, -, hc⟩ := hc
    intro y hy
    rcases List.mem_cons.1 hy with rfl | hy
    · exact hx
    · exact ih hc y hy

theorem congr (hc : DChain next prev p h l) (hn : ∀ y ∈ l, next' y = next y)
    (hp : ∀ y ∈ l, prev' y = prev y) : DChain next' prev' p h l := by
  induction l generalizing p h with
  | nil => exact hc
  | cons x l ih =>
    obtain ⟨rfl, hx, rfl, hc⟩ := hc
    refine ⟨rfl, hx, hp _ List.mem_cons_self, ?_⟩
    rw [hn _ List.mem_cons_self]
    exact ih hc (fun y hy => hn y (List.mem_cons_of_mem _ hy)) fun y hy =>
      hp y (List.mem_cons_of_mem _ hy)

theorem head_eq (hc : DChain next prev p h l) : h = l.headD 0 := by
  cases l with
  | nil => exact hc
  | cons x l => exact hc.1

/-- Another node in front of the list, instead of `p`. -/
theorem of_prev (hc : DChain next prev p h l) (hnodup : l.Nodup) (hn : ∀ y ∈ l, next' y = next y)
    (hp : ∀ y ∈ l, y ≠ h → prev' y = prev y) (hh : h ≠ 0 → prev' h = x) :
    DChain next' prev' x h l := by
  cases l with
  | nil => exact hc
  | cons y l =>
    obtain ⟨rfl, hy, -, hc⟩ := hc
    refine ⟨rfl, hy, hh hy, ?_⟩
    rw [hn _ List.mem_cons_self]
    refine hc.congr (fun z hz => hn z (List.mem_cons_of_mem _ hz)) fun z hz =>
      hp z (List.mem_cons_of_mem _ hz) ?_
    rintro rfl
    exact (List.nodup_cons.1 hnodup).1 hz

theorem cons (hc : DChain next prev p h l) (hnodup : l.Nodup) (hx : x ≠ 0) (hnx : next' x = h)
    (hpx : prev' x = 0) (hn : ∀ y ∈ l, next' y = next y)
    (hp : ∀ y ∈ l, y ≠ h → prev' y = prev y) (hh : h ≠ 0 → prev' h = x) :
    DChain next' prev' 0 x (x :: l) := by
  refine ⟨rfl, hx, hpx, ?_⟩
  rw [hnx]
  exact hc.of_prev hnodup hn hp hh

theorem next_eq (hc : DChain next prev p h (l₁ ++ b :: l₂)) : next b = l₂.headD 0 := by
  induction l₁ generalizing p h with
  | nil => exact hc.2.2.2.head_eq
  | cons a l₁ ih => exact ih hc.2.2.2

theorem prev_eq (hc : DChain next prev p h (l₁ ++ b :: l₂)) : prev b = l₁.getLastD p := by
  induction l₁ generalizing p h with
  | nil => exact hc.2.2.1
  | cons a l₁ ih =>
    rw [ih hc.2.2.2]
    cases l₁ <;> rfl

/-- Bypass `b`. -/
theorem remove (hc : DChain next prev p h (l₁ ++ b :: l₂)) (hnodup : (l₁ ++ b :: l₂).Nodup)
    (hp : p ∉ l₁ ++ b :: l₂) (hn : ∀ y ∈ l₁ ++ l₂, y ≠ prev b → next' y = next y)
    (hnb : prev b ∈ l₁ → next' (prev b) = next b)
    (hpr : ∀ y ∈ l₁ ++ l₂, y ≠ next b → prev' y = prev y)
    (hpb : next b ∈ l₂ → prev' (next b) = prev b) :
    DChain next' prev' p (if l₁ = [] then next b else h) (l₁ ++ l₂) := by
  induction l₁ generalizing p h with
  | nil =>
    rw [if_pos rfl]
    obtain ⟨rfl, -, rfl, hc⟩ := hc
    refine hc.of_prev (List.nodup_cons.1 hnodup).2 (fun y hy => hn y hy ?_) hpr fun hne => hpb ?_
    · rintro rfl
      exact hp (List.mem_cons_of_mem _ hy)
    · rw [hc.head_eq] at hne ⊢
      cases l₂ with
      | nil => exact absurd rfl hne
      | cons y l₂ => exact List.mem_cons_self
  | cons a l₁ ih =>
    rw [if_neg (List.cons_ne_nil a l₁)]
    have hprev := hc.prev_eq
    have hnext := hc.next_eq
    obtain ⟨rfl, ha, rfl, hc⟩ := hc
    obtain ⟨hnot, hnodup⟩ := List.nodup_cons.1 hnodup
    have hab : h ≠ next b := by
      rw [hnext]
      cases l₂ with
      | nil => exact ha
      | cons y l₂ =>
        rintro rfl
        exact hnot (List.mem_append_right _ (List.mem_cons_of_mem _ List.mem_cons_self))
    refine ⟨rfl, ha, hpr h List.mem_cons_self hab, ?_⟩
    have hih := ih hc hnodup hnot (fun y hy => hn y (List.mem_cons_of_mem _ hy))
      (fun hmem => hnb (List.mem_cons_of_mem _ hmem)) (fun y hy => hpr y (List.mem_cons_of_mem _ hy))
    cases l₁ with
    | nil =>
      rw [if_pos rfl] at hih
      have hbh : prev b = h := hprev
      have hlink := hnb (hbh ▸ List.mem_cons_self)
      rw [hbh] at hlink
      rw [hlink]
      exact hih
    | cons c l₁ =>
      rw [if_neg (List.cons_ne_nil c l₁)] at hih
      rw [hn h List.mem_cons_self]
      · exact hih
      · have hmem : prev b ∈ c :: l₁ := by
          rw [hprev, List.getLastD_cons, List.getLastD_cons]
          exact List.getLastD_mem_cons ..
        rintro heq
        exact hnot (List.mem_append_left _ (heq ▸ hmem))

theorem prev_mem (hc : DChain next prev p h (l₁ ++ b :: l₂)) (hne : l₁ ≠ []) : prev b ∈ l₁ := by
  rw [hc.prev_eq]
  cases l₁ with
  | nil => exact absurd rfl hne
  | cons a l₁ =>
    rw [List.getLastD_cons]
    exact List.getLastD_mem_cons ..

theorem next_mem (hc : DChain next prev p h (l₁ ++ b :: l₂)) (hne : next b ≠ 0) : next b ∈ l₂ := by
  rw [hc.next_eq] at hne ⊢
  cases l₂ with
  | nil => exact absurd rfl hne
  | cons a l₂ => exact List.mem_cons_self

/-- The first node is the one without a node before it. -/
theorem prev_eq_zero_iff (hc : DChain next prev 0 h (l₁ ++ b :: l₂)) : prev b = 0 ↔ l₁ = [] := by
  constructor
  · intro heq
    by_contra hne
    exact hc.ne_zero _ (List.mem_append_left _ (hc.prev_mem hne)) heq
  · rintro rfl
    exact hc.prev_eq

/-- Bypass `b` in a list of its own. -/
theorem unlink (hc : DChain next prev 0 h (l₁ ++ b :: l₂)) (hnodup : (l₁ ++ b :: l₂).Nodup)
    (hn : ∀ y ∈ l₁ ++ l₂, next' y = if prev b ≠ 0 ∧ y = prev b then next b else next y)
    (hp : ∀ y ∈ l₁ ++ l₂, prev' y = if next b ≠ 0 ∧ y = next b then prev b else prev y) :
    DChain next' prev' 0 (if prev b ≠ 0 then h else next b) (l₁ ++ l₂) := by
  have hzero := hc.ne_zero
  have hhead : (if prev b ≠ 0 then h else next b) = if l₁ = [] then next b else h := by
    by_cases hl : l₁ = []
    · rw [if_pos hl, if_neg (not_not.2 (hc.prev_eq_zero_iff.2 hl))]
    · rw [if_neg hl, if_pos (mt hc.prev_eq_zero_iff.1 hl)]
  rw [hhead]
  refine hc.remove hnodup (fun hmem => hzero 0 hmem rfl) (fun y hy hne => ?_) (fun hmem => ?_)
    (fun y hy hne => ?_) fun hmem => ?_
  · rw [hn y hy, if_neg fun hc => hne hc.2]
  · rw [hn _ (List.mem_append_left _ hmem), if_pos ⟨hzero _ (List.mem_append_left _ hmem), rfl⟩]
  · rw [hp y hy, if_neg fun hc => hne hc.2]
  · rw [hp _ (List.mem_append_right _ hmem),
      if_pos ⟨hzero _ (List.mem_append_right _ (List.mem_cons_of_mem _ hmem)), rfl⟩]

end DChain

end NewM2
