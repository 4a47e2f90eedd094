import Mathlib
import NewM2.Lib.Runs

/-!
# Records behind handles

A heap of records, each known by a handle. A record that is disposed of leaves its handle out of use for
good, and to use it then is an error, `dangling`. `Owns R h₀ h own`: a procedure that began with the heap
`h₀` has left every record of it as it was, and of the records it has made those in `own` are still there
and no others. Procedures compose by `Owns.trans`. -/

namespace NewM2.Handles

abbrev Handle := Nat

/-- The records by their handles; `none` for one that is disposed of. -/
abbrev Heap (α : Type) := List (Option α)

section procedures
variable {α ε : Type} (dangling : ε)

def deref (a : Handle) : StateT (Heap α) (Except ε) α := fun h =>
  match h[a]? with
  | some (some p) => .ok (p, h)
  | _ => .error dangling

def fresh (p : α) : StateT (Heap α) (Except ε) Handle := fun h => .ok (h.length, h ++ [some p])

def update (a : Handle) (p : α) : StateT (Heap α) (Except ε) Unit := fun h =>
  match h[a]? with
  | some (some _) => .ok ((), h.set a (some p))
  | _ => .error dangling

def dispose (a : Handle) : StateT (Heap α) (Except ε) Unit := fun h =>
  match h[a]? with
  | some (some _) => .ok ((), h.set a none)
  | _ => .error dangling

/-- A computation that leaves the heap alone. -/
def pureOn {σ : Type} (x : Except ε α) : StateT σ (Except ε) α := fun h => x.map (·, h)

end procedures

section owns
variable {α β ε : Type} {R : α → β → Prop} {h₀ h h' : Heap α} {a c : Handle} {p : α} {y z z' : β}
  {own own' : List (Handle × β)}

/-- The record at a handle stands for `z`. -/
def Holds (R : α → β → Prop) (h : Heap α) (a : Handle) (z : β) : Prop :=
  ∃ p, h[a]? = some (some p) ∧ R p z

structure Owns (R : α → β → Prop) (h₀ h : Heap α) (own : List (Handle × β)) : Prop where
  old : h₀ <+: h
  nodup : (own.map Prod.fst).Nodup
  holds : ∀ q ∈ own, h₀.length ≤ q.1 ∧ Holds R h q.1 q.2
  only : ∀ c p, h₀.length ≤ c → h[c]? = some (some p) → c ∈ own.map Prod.fst

theorem Holds.lt (hc : Holds R h c z) : c < h.length := by
  obtain ⟨p, hp, -⟩ := hc
  exact (List.getElem?_eq_some_iff.1 hp).1

theorem getElem?_eq_old (hpre : h <+: h') (hc : c < h.length) : h'[c]? = h[c]? := by
  obtain ⟨t, rfl⟩ := hpre
  exact List.getElem?_append_left hc

theorem Holds.mono (hc : Holds R h c z) (hpre : h <+: h') : Holds R h' c z := by
  obtain ⟨p, hp, hz⟩ := hc
  exact ⟨p, (getElem?_eq_old hpre (Holds.lt ⟨p, hp, hz⟩)).trans hp, hz⟩

theorem Holds.set_ne (hc : Holds R h c z) (hne : a ≠ c) (x : Option α) : Holds R (h.set a x) c z := by
  obtain ⟨p, hp, hz⟩ := hc
  exact ⟨p, (List.getElem?_set_ne hne).trans hp, hz⟩

namespace Owns

theorem nil : Owns R h h [] :=
  ⟨List.prefix_rfl, List.nodup_nil, fun _ hq => absurd hq List.not_mem_nil, fun _ _ hc hp =>
    absurd (List.getElem?_eq_some_iff.1 hp).1 (not_lt.2 hc)⟩

theorem perm (ho : Owns R h₀ h own) (hp : own.Perm own') : Owns R h₀ h own' :=
  ⟨ho.old, (hp.map Prod.fst).nodup_iff.1 ho.nodup, fun q hq => ho.holds q (hp.mem_iff.2 hq),
    fun c p hc hcp => (hp.map Prod.fst).mem_iff.1 (ho.only c p hc hcp)⟩

theorem second {q q' : Handle × β} (ho : Owns R h₀ h (q :: q' :: own)) : Owns R h₀ h (q' :: q :: own) :=
  ho.perm (.swap q' q own)

theorem third {q q' q'' : Handle × β} (ho : Owns R h₀ h (q :: q' :: q'' :: own)) :
    Owns R h₀ h (q'' :: q :: q' :: own) :=
  ho.perm (((List.Perm.swap q'' q' own).cons q).trans (.swap q'' q (q' :: own)))

theorem head (ho : Owns R h₀ h ((c, z) :: own)) : Holds R h c z := (ho.holds _ (List.mem_cons_self ..)).2

theorem le_length (ho : Owns R h₀ h own) : h₀.length ≤ h.length := ho.old.length_le

/-- What a procedure makes and what the next one makes. -/
theorem trans (ho : Owns R h₀ h own) (ho' : Owns R h h' own') : Owns R h₀ h' (own' ++ own) := by
  refine ⟨ho.old.trans ho'.old, ?_, ?_, ?_⟩
  · rw [List.map_append]
    refine ho'.nodup.append ho.nodup fun c hc' hc => ?_
    obtain ⟨q', hq', rfl⟩ := List.mem_map.1 hc'
    obtain ⟨q, hq, heq⟩ := List.mem_map.1 hc
    have hlt := (ho.holds q hq).2.lt
    rw [heq] at hlt
    exact absurd hlt (not_lt.2 (ho'.holds q' hq').1)
  · intro q hq
    rcases List.mem_append.1 hq with hq | hq
    · exact ⟨ho.le_length.trans (ho'.holds q hq).1, (ho'.holds q hq).2⟩
    · exact ⟨(ho.holds q hq).1, (ho.holds q hq).2.mono ho'.old⟩
  · intro c p hc hp
    rw [List.map_append, List.mem_append]
    rcases Nat.lt_or_ge c h.length with hlt | hge
    · rw [getElem?_eq_old ho'.old hlt] at hp
      exact .inr (ho.only c p hc hp)
    · exact .inl (ho'.only c p hge hp)

theorem alloc (hp : R p z) : Owns R h (h ++ [some p]) [(h.length, z)] := by
  refine ⟨List.prefix_append .., List.nodup_singleton _, ?_, ?_⟩
  · intro q hq
    rw [List.mem_singleton.1 hq]
    exact ⟨le_rfl, p, by simp, hp⟩
  · intro c p' hc hp'
    have hlt := (List.getElem?_eq_some_iff.1 hp').1
    rw [List.length_append, List.length_singleton] at hlt
    rw [List.map_singleton, List.mem_singleton]
    omega

theorem prefix_set (ho : Owns R h₀ h own) (hc : h₀.length ≤ c) (x : Option α) : h₀ <+: h.set c x := by
  obtain ⟨t, rfl⟩ := ho.old
  rw [List.set_append_right _ _ hc]
  exact List.prefix_append ..

theorem free (ho : Owns R h₀ h ((c, z) :: own)) : Owns R h₀ (h.set c none) own := by
  have hc := ho.holds _ (List.mem_cons_self ..)
  have hnodup := List.nodup_cons.1 (List.map_cons ▸ ho.nodup)
  refine ⟨ho.prefix_set hc.1 none, hnodup.2, fun q hq => ?_, fun d p hd hp => ?_⟩
  · have hne : c ≠ q.1 := fun h => hnodup.1 (List.mem_map.2 ⟨q, hq, h.symm⟩)
    have hq' := ho.holds q (List.mem_cons_of_mem _ hq)
    exact ⟨hq'.1, hq'.2.set_ne hne none⟩
  · have hne : c ≠ d := by
      rintro rfl
      rw [List.getElem?_set_self hc.2.lt] at hp
      exact absurd hp (by simp)
    rw [List.getElem?_set_ne hne] at hp
    have hmem := ho.only d p hd hp
    rw [List.map_cons, List.mem_cons] at hmem
    exact hmem.resolve_left hne.symm

theorem store (ho : Owns R h₀ h ((c, z) :: own)) (hp : R p z') :
    Owns R h₀ (h.set c (some p)) ((c, z') :: own) := by
  have hc := ho.holds _ (List.mem_cons_self ..)
  have hnodup := List.nodup_cons.1 (List.map_cons ▸ ho.nodup)
  refine ⟨ho.prefix_set hc.1 _, ho.nodup, fun q hq => ?_, fun d p' hd hp' => ?_⟩
  · rcases List.mem_cons.1 hq with rfl | hq
    · exact ⟨hc.1, p, List.getElem?_set_self hc.2.lt, hp⟩
    · have hne : c ≠ q.1 := fun h => hnodup.1 (List.mem_map.2 ⟨q, hq, h.symm⟩)
      have hq' := ho.holds q (List.mem_cons_of_mem _ hq)
      exact ⟨hq'.1, hq'.2.set_ne hne _⟩
  · by_cases hne : c = d
    · rw [← hne]
      exact List.mem_cons_self ..
    · rw [List.getElem?_set_ne hne] at hp'
      exact ho.only d p' hd hp'

end Owns

/-! ## The handles in use -/

def inUse (h : Heap α) : List Handle := (List.range h.length).filter fun a => h[a]?.join.isSome

theorem mem_inUse : a ∈ inUse h ↔ ∃ p, h[a]? = some (some p) := by
  rw [inUse, List.mem_filter, List.mem_range]
  constructor
  · rintro ⟨hlt, hsome⟩
    rw [List.getElem?_eq_getElem hlt, Option.join_some] at hsome
    obtain ⟨p, hp⟩ := Option.isSome_iff_exists.1 hsome
    exact ⟨p, by rw [List.getElem?_eq_getElem hlt, hp]⟩
  · rintro ⟨p, hp⟩
    refine ⟨(List.getElem?_eq_some_iff.1 hp).1, ?_⟩
    rw [hp]
    rfl

/-- All that is in use is owned, once. -/
theorem Owns.perm_inUse (ho : Owns R [] h own) : (own.map Prod.fst).Perm (inUse h) := by
  have hnodup : (inUse h).Nodup := List.nodup_range.filter _
  refine (List.perm_ext_iff_of_nodup ho.nodup hnodup).2 fun c => ?_
  rw [mem_inUse]
  constructor
  · intro hc
    obtain ⟨q, hq, rfl⟩ := List.mem_map.1 hc
    obtain ⟨p, hp, -⟩ := (ho.holds q hq).2
    exact ⟨p, hp⟩
  · rintro ⟨p, hp⟩
    exact ho.only c p (Nat.zero_le c) hp

theorem Owns.length_inUse (ho : Owns R [] h own) : (inUse h).length = own.length := by
  rw [← ho.perm_inUse.length_eq, List.length_map]

theorem length_inUse_le (h : Heap α) : (inUse h).length ≤ h.length :=
  (List.length_filter_le _ _).trans (List.length_range (n := h.length)).le

/-! ## The procedures -/

variable {allowed : ε → Prop} {dangling : ε}

theorem deref_reads (hc : Holds R h c z) :
    Reads allowed (deref dangling c) h (R · z) := by
  obtain ⟨p, hp, hz⟩ := hc
  rw [Reads, deref, hp]
  exact Runs.ok ⟨hz, rfl⟩

theorem fresh_runs (hp : R p z) :
    Runs allowed (fresh (ε := ε) p h) fun q => Owns R h q.2 [(q.1, z)] :=
  Runs.ok (Owns.alloc hp)

theorem dispose_runs (ho : Owns R h₀ h ((c, z) :: own)) :
    Runs allowed (dispose dangling c h) fun q => Owns R h₀ q.2 own := by
  obtain ⟨p, hp, -⟩ := ho.head
  rw [dispose, hp]
  exact Runs.ok ho.free

theorem update_runs (ho : Owns R h₀ h ((c, z) :: own)) (hp : R p z') :
    Runs allowed (update dangling c p h) fun q => Owns R h₀ q.2 ((c, z') :: own) := by
  obtain ⟨p', hp', -⟩ := ho.head
  rw [update, hp']
  exact Runs.ok (ho.store hp)

theorem pureOn_reads {γ σ : Type} {x : Except ε γ} {Q : γ → Prop} {s : σ} (hx : Runs allowed x Q) :
    Reads allowed (pureOn x) s Q := by
  rcases x with e | v
  · exact hx
  · exact ⟨hx, rfl⟩

end owns
end NewM2.Handles
