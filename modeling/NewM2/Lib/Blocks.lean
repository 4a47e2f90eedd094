import Mathlib
import NewM2.Lib.Handles

/-!
# Blocks of cells

A block is a row of cells behind an address, on a heap of blocks; NIL is no block. Its cells are read and
written through a view, an array of `limit` elements whose index is checked. A block that is known to have
`cap` cells, the first of which are `p`, is owned as `(cap, p)`; what is behind `p` may be anything. -/

namespace NewM2.Blocks
open Handles

abbrev Address := Option Handle

inductive Stop
  | indexException
  | nilPointer
  | outside
  | dangling
  /-- A loop that goes on for ever. -/
  | rounds
deriving DecidableEq

abbrev Proc (α β : Type) := StateT (Heap (List α)) (Except Stop) β

/-- There is room for every size below 2⁶² bytes; what is in a new block is not defined. -/
structure Memory (α : Type) where
  grants : Nat → Bool
  grants_small : ∀ size, size < 2 ^ 62 → grants size = true
  junk : Nat → α

section procedures
variable {α : Type} (limit : Nat)

def stop {β : Type} (e : Stop) : Proc α β := fun _ => .error e

/-- `a^[i]` -/
def peek (a : Address) (i : Nat) : Proc α α :=
  if limit ≤ i then stop .indexException
  else
    match a with
    | none => stop .nilPointer
    | some c => do
      let cells ← deref .dangling c
      match cells[i]? with
      | some x => pure x
      | none => stop .outside

/-- `a^[i] := x` -/
def poke (a : Address) (i : Nat) (x : α) : Proc α Unit :=
  if limit ≤ i then stop .indexException
  else
    match a with
    | none => stop .nilPointer
    | some c => do
      let cells ← deref .dangling c
      if i < cells.length then update .dangling c (cells.set i x) else stop .outside

/-- ALLOCATE of some bytes, for cells of `width` bytes. -/
def allocate (M : Memory α) (width size : Nat) : Proc α Address :=
  if size = 0 ∨ M.grants size = false then pure none
  else do
    let c ← fresh ((List.range (size / width)).map M.junk)
    pure (some c)

def deallocate : Address → Proc α Unit
  | none => stop .nilPointer
  | some c => dispose .dangling c

/-- `d^[k + i] := s^[i]; INC(i)`, so many times. -/
def copy (d : Address) (k : Nat) (s : Address) : Nat → Nat → Proc α Unit
  | 0, _ => pure ()
  | m + 1, i => do
    let x ← peek limit s i
    poke limit d (k + i) x
    copy d k s m (i + 1)

end procedures

/-- `WHILE nc < need DO nc := nc * 2 END`, in 64 bits and in so many rounds at most. -/
def growTo : Nat → Nat → Nat → Option Nat
  | 0, _, _ => none
  | n + 1, nc, need => if nc < need then growTo n (nc * 2 % 2 ^ 64) need else some nc

section specs
variable {α : Type} {limit : Nat} {h₀ h : Heap (List α)} {c d : Handle} {cap i k : Nat} {p p' : List α} {x : α}
  {own rest : List (Handle × (Nat × List α))} {allowed : Stop → Prop}

def IsBlock (cells : List α) (z : Nat × List α) : Prop := cells.length = z.1 ∧ z.2 <+: cells

/-- Less may be known of a block. -/
theorem weaken (ho : Owns IsBlock h₀ h ((c, (cap, p)) :: own)) (hp : p' <+: p) :
    Owns IsBlock h₀ h ((c, (cap, p')) :: own) := by
  refine ⟨ho.old, ho.nodup, fun q hq => ?_, ho.only⟩
  rcases List.mem_cons.1 hq with rfl | hq
  · obtain ⟨hold, cells, hget, hlen, hcells⟩ := ho.holds _ (List.mem_cons_self ..)
    exact ⟨hold, cells, hget, hlen, hp.trans hcells⟩
  · exact ho.holds q (List.mem_cons_of_mem _ hq)

theorem peek_reads (ho : Owns IsBlock h₀ h own) (hc : (c, (cap, p)) ∈ own) (hi : i < p.length)
    (hlimit : i < limit) : Reads allowed (peek limit (some c) i) h fun x => p[i]? = some x := by
  obtain ⟨-, hholds⟩ := ho.holds _ hc
  rw [peek, if_neg (not_le.2 hlimit)]
  refine (deref_reads hholds).bind fun cells hcells => ?_
  obtain ⟨-, t, rfl⟩ := hcells
  rw [List.getElem?_append_left hi, List.getElem?_eq_getElem hi]
  exact Runs.ok ⟨rfl, rfl⟩

/-- A cell at the end of what is known, or within it, is written. -/
theorem poke_runs (ho : Owns IsBlock h₀ h ((c, (cap, p)) :: own)) (hlimit : i < limit) (hi : i < cap)
    (hp : i ≤ p.length) (x : α) :
    Runs allowed (poke limit (some c) i x h) fun q =>
      Owns IsBlock h₀ q.2 ((c, (cap, p.take i ++ x :: p.drop (i + 1))) :: own) := by
  rw [poke, if_neg (not_le.2 hlimit)]
  refine (deref_reads ho.head).bind fun cells hcells => ?_
  obtain ⟨hlen, t, rfl⟩ := hcells
  replace hlen : (p ++ t).length = cap := hlen
  change Runs allowed ((if i < (p ++ t).length then update .dangling c ((p ++ t).set i x) else stop .outside :
    Proc α Unit) h) _
  have hblock : IsBlock ((p ++ t).set i x) (cap, p.take i ++ x :: p.drop (i + 1)) := by
    refine ⟨by rw [List.length_set, hlen], ?_⟩
    rcases Nat.lt_or_eq_of_le hp with hlt | rfl
    · rw [List.set_append_left _ _ hlt, List.set_eq_take_append_cons_drop, if_pos hlt]
      exact List.prefix_append _ _
    · rw [List.take_length, List.drop_of_length_le (Nat.le_succ _), List.set_append_right _ _ le_rfl, Nat.sub_self]
      rw [List.length_append] at hlen
      rcases t with _ | ⟨y, t⟩
      · rw [List.length_nil] at hlen
        omega
      · exact ⟨t, by simp⟩
  rw [if_pos (by omega)]
  exact update_runs ho hblock

theorem poke_end (ho : Owns IsBlock h₀ h ((c, (cap, p)) :: own)) (hlimit : p.length < limit) (hcap : p.length < cap)
    (x : α) :
    Runs allowed (poke limit (some c) p.length x h) fun q => Owns IsBlock h₀ q.2 ((c, (cap, p ++ [x])) :: own) := by
  have hpoke : Runs allowed (poke limit (some c) p.length x h) _ := poke_runs ho hlimit hcap le_rfl x
  rwa [List.take_length, List.drop_of_length_le (Nat.le_succ _)] at hpoke

theorem poke_limit (hi : limit ≤ i) (a : Address) (x : α) (h : Heap (List α)) :
    poke limit a i x h = .error .indexException := by
  rw [poke.eq_def, if_pos hi]
  rfl

theorem allocate_runs (M : Memory α) {width size : Nat} (hpos : 0 < size) (hsize : size < 2 ^ 62)
    (ho : Owns IsBlock h₀ h own) :
    Runs allowed (allocate M width size h) fun q =>
      ∃ c, q.1 = some c ∧ Owns IsBlock h₀ q.2 ((c, (size / width, [])) :: own) := by
  have hgrants := M.grants_small size hsize
  rw [allocate, if_neg (by rw [hgrants]; simp; omega)]
  have hblock : IsBlock ((List.range (size / width)).map M.junk) (size / width, []) :=
    ⟨by rw [List.length_map, List.length_range], List.nil_prefix⟩
  refine Runs.bindS (fresh_runs hblock) fun c h' hfresh => Runs.ok ⟨c, rfl, ho.trans hfresh⟩

theorem deallocate_runs {z : Nat × List α} (ho : Owns IsBlock h₀ h ((c, z) :: own)) :
    Runs allowed (deallocate (some c) h) fun q => Owns IsBlock h₀ q.2 own := dispose_runs ho

/-- The cells that are copied come behind what is known, wherever they are read. -/
theorem copy_runs {s : Address} {src : List α} (m : Nat) (hm : i + m = src.length)
    (hread : ∀ i h, i < src.length → Owns IsBlock h₀ h ((d, (cap, p ++ src.take i)) :: own) →
      Reads allowed (peek limit s i) h fun x => src[i]? = some x)
    (hcap : p.length + src.length ≤ cap) (hlimit : p.length + src.length ≤ limit)
    (ho : Owns IsBlock h₀ h ((d, (cap, p ++ src.take i)) :: own)) :
    Runs allowed (copy limit (some d) p.length s m i h) fun q =>
      Owns IsBlock h₀ q.2 ((d, (cap, p ++ src)) :: own) := by
  induction m generalizing i h with
  | zero =>
    rw [List.take_of_length_le (by omega)] at ho
    exact Runs.ok ho
  | succ m ih =>
    have hlen : (p ++ src.take i).length = p.length + i := by
      rw [List.length_append, List.length_take]
      omega
    refine (hread i h (by omega) ho).bind fun x hx => ?_
    have hpoke : Runs allowed (poke limit (some d) (p ++ src.take i).length x h) _ := poke_end ho (by omega) (by omega) x
    rw [hlen] at hpoke
    have htake : src.take (i + 1) = src.take i ++ [x] := by
      rw [List.take_add_one, hx]
      rfl
    refine Runs.bindS hpoke fun _ h' ho' => ih (by omega) ?_
    rwa [htake, ← List.append_assoc]

/-- All of `src` is copied. -/
theorem copyAll_runs {s : Address} {src : List α} (hk : k = p.length)
    (hread : ∀ i h, i < src.length → Owns IsBlock h₀ h ((d, (cap, p ++ src.take i)) :: own) →
      Reads allowed (peek limit s i) h fun x => src[i]? = some x)
    (hcap : p.length + src.length ≤ cap) (hlimit : p.length + src.length ≤ limit)
    (ho : Owns IsBlock h₀ h ((d, (cap, p)) :: own)) :
    Runs allowed (copy limit (some d) k s src.length 0 h) fun q =>
      Owns IsBlock h₀ q.2 ((d, (cap, p ++ src)) :: own) := by
  rw [hk]
  exact copy_runs src.length (Nat.zero_add _) hread hcap hlimit (by rwa [List.take_zero, List.append_nil])

/-- A power of two is doubled until it is large enough. -/
theorem growTo_pow {n j m need : Nat} (hj : j ≤ m) (hm : m ≤ 63) (hneed : need ≤ 2 ^ m) (hn : m - j < n) :
    ∃ j', growTo n (2 ^ j) need = some (2 ^ j') ∧ need ≤ 2 ^ j' ∧ j ≤ j' ∧ j' ≤ m := by
  induction n generalizing j with
  | zero => exact absurd hn (Nat.not_lt_zero _)
  | succ n ih =>
    rw [growTo]
    split_ifs with hlt
    · have hjm : j < m := (Nat.pow_lt_pow_iff_right (by decide)).1 (hlt.trans_le hneed)
      have hpow : 2 ^ (j + 1) < 2 ^ 64 := Nat.pow_lt_pow_right (by decide) (by omega)
      rw [← Nat.pow_succ, Nat.mod_eq_of_lt hpow]
      obtain ⟨j', hgrow, hle, hj', hm'⟩ := ih hjm (by omega)
      exact ⟨j', hgrow, hle, by omega, hm'⟩
    · exact ⟨j, rfl, not_lt.1 hlt, le_rfl, hj⟩

end specs

end NewM2.Blocks
