import Mathlib

/-!
# Run-time type test (`newm2-runtime/src/rtti.rs`)

`nm2RttiIsa` walks up the parents of a candidate until it meets the target or has risen above its depth.
Where each depth is the parent's plus one, that is the ancestor relation (`nm2RttiIsa_iff`). -/

namespace NewM2.Rtti

structure TypeInfo (α : Type) where
  /-- Null at a root. -/
  parent : Option α
  depth : Nat

/-- Type-info records at the addresses `α`. -/
structure Forest (α : Type) where
  info : α → TypeInfo α
  depth_parent : ∀ p q, (info p).parent = some q → (info p).depth = (info q).depth + 1

namespace Forest
variable {α : Type} (F : Forest α)

/-- What is left of a walk that has come to `p`. -/
def height : Option α → Nat
  | none => 0
  | some p => (F.info p).depth + 1

theorem height_parent (p : α) : F.height (F.info p).parent < F.height (some p) := by
  rcases h : (F.info p).parent with - | q
  · exact Nat.succ_pos _
  · have hdepth := F.depth_parent p q h
    simp only [height]
    omega

/-! ## Ancestry -/

/-- `q` is the record `p` or one of its ancestors. -/
def Ancestry (p q : α) : Prop := Relation.ReflTransGen (fun p q => (F.info p).parent = some q) p q

variable {F}

theorem Ancestry.depth_le {p q : α} (h : F.Ancestry p q) : (F.info q).depth ≤ (F.info p).depth := by
  induction h with
  | refl => exact le_rfl
  | tail _ hstep ih =>
    have hdepth := F.depth_parent _ _ hstep
    omega

/-- An ancestor at the same depth is the record itself. -/
theorem Ancestry.eq_of_depth {p q : α} (h : F.Ancestry p q)
    (hdepth : (F.info p).depth ≤ (F.info q).depth) : p = q := by
  rcases Relation.ReflTransGen.cases_head h with rfl | ⟨r, hr, hrest⟩
  · rfl
  · have h₁ := F.depth_parent p r hr
    have h₂ := Ancestry.depth_le hrest
    omega

/-- The next record of the walk has the same ancestors but one. -/
theorem ancestry_iff_of_ne {p q : α} (hne : p ≠ q) :
    F.Ancestry p q ↔ ∃ r, (F.info p).parent = some r ∧ F.Ancestry r q := by
  rw [Ancestry, Relation.ReflTransGen.cases_head_iff]
  exact or_iff_right hne

/-! ## The test -/

variable [DecidableEq α] (F)

/-- The loop of `nm2_rtti_isa`. -/
def walk (target : α) (p : Option α) : Bool :=
  match p with
  | none => false
  | some q =>
    if (F.info q).depth < (F.info target).depth then false
    else if q = target then true
    else walk target (F.info q).parent
termination_by F.height p
decreasing_by exact F.height_parent q

def nm2RttiIsa (cand target : Option α) : Bool :=
  match cand, target with
  | some c, some t => F.walk t (some c)
  | _, _ => false

variable {F}

theorem walk_iff {target : α} (p : Option α) :
    F.walk target p = true ↔ ∃ c, p = some c ∧ F.Ancestry c target := by
  induction p using walk.induct F target with
  | case1 => simp [walk]
  | case2 q hlt =>
    -- risen above the target
    rw [walk]
    simp only [hlt, if_true, Bool.false_eq_true, false_iff, not_exists, not_and]
    rintro c hc hanc
    obtain rfl := Option.some.inj hc
    exact absurd hanc.depth_le (Nat.not_le.2 hlt)
  | case3 hlt =>
    rw [walk]
    simp only [hlt, if_false, if_true, true_iff]
    exact ⟨target, rfl, .refl⟩
  | case4 q hlt hne ih =>
    rw [walk]
    simp only [hlt, hne, if_false, ih, Option.some.injEq, exists_eq_left']
    rw [ancestry_iff_of_ne hne]

theorem nm2RttiIsa_iff (cand target : Option α) : F.nm2RttiIsa cand target = true ↔
    ∃ c t, cand = some c ∧ target = some t ∧ F.Ancestry c t := by
  rcases cand with - | c
  · simp [nm2RttiIsa]
  rcases target with - | t
  · simp [nm2RttiIsa]
  · rw [nm2RttiIsa, walk_iff]
    simp

variable (F)

/-- The walk without the early exit. -/
def fullWalk (target : α) (p : Option α) : Bool :=
  match p with
  | none => false
  | some q => if q = target then true else fullWalk target (F.info q).parent
termination_by F.height p
decreasing_by exact F.height_parent q

theorem fullWalk_eq_walk (target : α) (p : Option α) : F.fullWalk target p = F.walk target p := by
  induction p using fullWalk.induct F target with
  | case1 => rw [fullWalk, walk]
  | case2 =>
    rw [fullWalk, walk]
    simp
  | case3 q hne ih =>
    rw [fullWalk]
    simp only [hne, if_false, ih]
    rw [Bool.eq_iff_iff, walk_iff, walk_iff]
    simp only [Option.some.injEq, exists_eq_left']
    exact (ancestry_iff_of_ne hne).symm

/-- The test is ancestry, the early exit does not change it, and it is a partial order of the records. -/
theorem nm2RttiIsa_spec :
    (∀ cand target, F.nm2RttiIsa cand target = true ↔
      ∃ c t, cand = some c ∧ target = some t ∧ F.Ancestry c t) ∧
    (∀ c t, F.nm2RttiIsa (some c) (some t) = F.fullWalk t (some c)) ∧
    (∀ c, F.nm2RttiIsa (some c) (some c) = true) ∧
    (∀ c d, F.nm2RttiIsa (some c) (some d) = true → F.nm2RttiIsa (some d) (some c) = true → c = d) ∧
    ∀ c d e, F.nm2RttiIsa (some c) (some d) = true → F.nm2RttiIsa (some d) (some e) = true →
      F.nm2RttiIsa (some c) (some e) = true := by
  have hiff : ∀ c t, F.nm2RttiIsa (some c) (some t) = true ↔ F.Ancestry c t := fun c t => by
    rw [nm2RttiIsa_iff]
    simp
  refine ⟨nm2RttiIsa_iff, fun c t => (F.fullWalk_eq_walk t (some c)).symm, fun c => (hiff c c).2 .refl,
    fun c d hcd hdc => ?_, fun c d e hcd hde => ?_⟩
  · exact Ancestry.eq_of_depth ((hiff c d).1 hcd) (Ancestry.depth_le ((hiff d c).1 hdc))
  · exact (hiff c e).2 (Relation.ReflTransGen.trans ((hiff c d).1 hcd) ((hiff d e).1 hde))

end Forest
end NewM2.Rtti
