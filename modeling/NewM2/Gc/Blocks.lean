import Mathlib.Data.List.Forall2
import Mathlib.Data.List.Pairwise
import NewM2.Gc.Inv

/-! # The blocks of a heap

`Block m cs b`: the walk of some cluster visits `b`; `Live` blocks are the allocated ones. Under
`ClustersTiled` the blocks of all clusters are disjoint. `Retagged` relates the memories before and after
a phase that changes nothing but mark bits: everything else about the blocks is the same. -/

namespace NewM2.Gc

/-- The walk of a cluster visits `b`. -/
def Block (m : Mem) (cs : List Cluster) (b : Nat) : Prop :=
  ∃ c ∈ cs, ∃ bs, Tiled (blockSize m) c.base (c.base + c.bump) bs ∧ b ∈ bs

def Live (m : Mem) (cs : List Cluster) (b : Nat) : Prop := Block m cs b ∧ ¬ isFree (tagOf m b)

/-- The address ranges of two clusters do not overlap. -/
def Cluster.Separate (c d : Cluster) : Prop := c.base + c.size ≤ d.base ∨ d.base + d.size ≤ c.base

instance : DecidableRel Cluster.Separate := fun _ _ => inferInstanceAs (Decidable (_ ∨ _))

instance : Std.Symm Cluster.Separate := ⟨fun _ _ => Or.symm⟩

/-- The same address ranges in the same order. -/
def SameShape (cs cs' : List Cluster) : Prop :=
  List.Forall₂ (fun c c' : Cluster => c'.base = c.base ∧ c'.size = c.size) cs cs'

namespace SameShape
variable {cs cs' cs'' : List Cluster} {d : Cluster}

theorem refl (cs : List Cluster) : SameShape cs cs := List.forall₂_same.2 fun _ _ => ⟨rfl, rfl⟩

theorem trans (h : SameShape cs cs') (h' : SameShape cs' cs'') : SameShape cs cs'' := by
  induction h generalizing cs'' with
  | nil => exact h'
  | cons hcd h ih =>
    obtain _ | ⟨hde, h'⟩ := h'
    exact .cons ⟨hde.1.trans hcd.1, hde.2.trans hcd.2⟩ (ih h')

theorem forall_separate (h : SameShape cs cs') (hd : ∀ c ∈ cs, d.Separate c) :
    ∀ c ∈ cs', d.Separate c := by
  induction h with
  | nil => exact hd
  | cons hcd h ih =>
    rw [List.forall_mem_cons] at hd ⊢
    refine ⟨?_, ih hd.2⟩
    unfold Cluster.Separate at *
    rw [hcd.1, hcd.2]
    exact hd.1

theorem pairwise (h : SameShape cs cs') (hp : cs.Pairwise Cluster.Separate) :
    cs'.Pairwise Cluster.Separate := by
  induction h with
  | nil => exact hp
  | cons hcd h ih =>
    rw [List.pairwise_cons] at hp ⊢
    refine ⟨forall_separate h fun c hc => ?_, ih hp.2⟩
    have := hp.1 c hc
    unfold Cluster.Separate at *
    rwa [hcd.1, hcd.2]

end SameShape

/-- All clusters are tiled. -/
structure ClustersTiled (m : Mem) (cs : List Cluster) : Prop where
  separate : cs.Pairwise Cluster.Separate
  each : ∀ c ∈ cs, ∃ bs, ClusterTiled m c bs

/-- The invariant of all clusters. -/
structure ClustersInv (m : Mem) (cs : List Cluster) (held : Nat → Prop) : Prop where
  separate : cs.Pairwise Cluster.Separate
  each : ∀ c ∈ cs, ∃ bs fl, ClusterInv m c held bs fl

abbrev ClustersOk (m : Mem) (cs : List Cluster) : Prop := ClustersInv m cs fun _ => False

theorem ClusterTiled.block {m : Mem} {cs : List Cluster} {c : Cluster} {bs : List Nat} {b : Nat}
    (h : ClusterTiled m c bs) (hc : c ∈ cs) (hb : b ∈ bs) : Block m cs b := ⟨c, hc, bs, h.tiled, hb⟩

namespace ClustersTiled
variable {m m' : Mem} {cs : List Cluster} {c : Cluster} {a b x : Nat} {bs : List Nat}

/-- The blocks of a cluster are the ones its walk visits. -/
theorem exists_cluster (h : ClustersTiled m cs) (hb : Block m cs b) :
    ∃ c ∈ cs, ∃ bs, ClusterTiled m c bs ∧ b ∈ bs := by
  obtain ⟨c, hc, bs, hbs, hmem⟩ := hb
  obtain ⟨bs', hinv⟩ := h.each c hc
  exact ⟨c, hc, bs', hinv, hbs.unique hinv.tiled ▸ hmem⟩

theorem min_le (h : ClustersTiled m cs) (hb : Block m cs b) : minBlock ≤ blockSize m b := by
  obtain ⟨c, hc, bs, hinv, hmem⟩ := h.exists_cluster hb
  exact (hinv.range hmem).2.2

theorem pos (h : ClustersTiled m cs) (hb : Block m cs b) : 0 < b := by
  obtain ⟨c, hc, bs, hinv, hmem⟩ := h.exists_cluster hb
  have := (hinv.range hmem).1
  have := hinv.base_pos
  omega

theorem separate_of_ne (h : ClustersTiled m cs) {c d : Cluster} (hc : c ∈ cs) (hd : d ∈ cs)
    (hne : c ≠ d) : c.Separate d := h.separate.forall hc hd hne

/-- Distinct blocks are disjoint, also across clusters. -/
theorem disjoint (h : ClustersTiled m cs) (ha : Block m cs a) (hb : Block m cs b) (hne : a ≠ b) :
    a + blockSize m a ≤ b ∨ b + blockSize m b ≤ a := by
  obtain ⟨c, hc, bs, hinv, ha⟩ := h.exists_cluster ha
  obtain ⟨d, hd, bs', hinv', hb⟩ := h.exists_cluster hb
  by_cases hcd : c = d
  · subst hcd
    rw [hinv'.tiled.unique hinv.tiled] at hb
    exact hinv.disjoint ha hb hne
  · have h1 := hinv.range ha
    have h2 := hinv'.range hb
    have := hinv.bump_le
    have := hinv'.bump_le
    rcases h.separate_of_ne hc hd hcd with h' | h' <;> omega

theorem apart (h : ClustersTiled m cs) (ha : Block m cs a) (hb : Block m cs b) (hne : a ≠ b) :
    Apart a b := by
  have := h.min_le ha
  have := h.min_le hb
  unfold Apart
  rcases h.disjoint ha hb hne with h' | h' <;> omega

/-- Tiles of the same size are the same blocks. -/
theorem block_congr (h : ClustersTiled m cs)
    (hsize : ∀ b, Block m cs b → blockSize m' b = blockSize m b) : Block m' cs b ↔ Block m cs b := by
  constructor
  · rintro ⟨c, hc, bs, hbs, hb⟩
    obtain ⟨bs', hinv⟩ := h.each c hc
    have htiled := hinv.tiled.congr fun y hy => hsize y (hinv.block hc hy)
    obtain rfl := hbs.unique htiled
    exact hinv.block hc hb
  · intro hb
    obtain ⟨c, hc, bs, hinv, hmem⟩ := h.exists_cluster hb
    exact ⟨c, hc, bs, hinv.tiled.congr fun y hy => hsize y (hinv.block hc hy), hmem⟩

/-- Outside the used part of its own cluster there is no block. -/
theorem apart_of_outside (h : ClustersTiled m cs) (hc : c ∈ cs) (h1 : c.base + c.bump ≤ x)
    (h2 : x < c.base + c.size) (hb : Block m cs b) : x < b ∨ b + blockSize m b ≤ x := by
  obtain ⟨d, hd, bs, hd', hmem⟩ := h.exists_cluster hb
  have hr := hd'.range hmem
  have := hd'.bump_le
  by_cases hcd : d = c
  · subst hcd
    omega
  · rcases h.separate_of_ne hd hc hcd with h' | h' <;> omega

end ClustersTiled

namespace ClustersInv
variable {m : Mem} {cs : List Cluster} {held : Nat → Prop} {c : Cluster} {b : Nat}

theorem tiled (h : ClustersInv m cs held) : ClustersTiled m cs where
  separate := h.separate
  each c hc := by
    obtain ⟨bs, fl, hinv⟩ := h.each c hc
    exact ⟨bs, hinv.toClusterTiled⟩

theorem exists_cluster (h : ClustersInv m cs held) (hb : Block m cs b) :
    ∃ c ∈ cs, ∃ bs fl, ClusterInv m c held bs fl ∧ b ∈ bs := by
  obtain ⟨c, hc, bs, hbs, hmem⟩ := hb
  obtain ⟨bs', fl, hinv⟩ := h.each c hc
  exact ⟨c, hc, bs', fl, hinv, hbs.unique hinv.tiled ▸ hmem⟩

end ClustersInv

/-! ## Changes of mark bits -/

structure Retagged (m m' : Mem) (cs : List Cluster) : Prop where
  tag : ∀ b, Block m cs b → clearMark (tagOf m' b) = clearMark (tagOf m b)
  frame : ∀ x, (∀ b, Block m cs b → x < b ∨ b + 8 ≤ x) → m' x = m x

namespace Retagged
variable {m m' m'' : Mem} {cs : List Cluster} {b v x : Nat}

theorem refl (m : Mem) (cs : List Cluster) : Retagged m m cs := ⟨fun _ _ => rfl, fun _ _ => rfl⟩

theorem isFree_eq (h : Retagged m m' cs) (hb : Block m cs b) :
    isFree (tagOf m' b) = isFree (tagOf m b) := isFree_congr (h.tag b hb)

/-- The bytes of a block behind its tag are the same. -/
theorem bytes (h : Retagged m m' cs) (hinv : ClustersTiled m cs) (hb : Block m cs b)
    (h1 : b + 8 ≤ x) (h2 : x < b + blockSize m b) : m' x = m x := by
  refine h.frame x fun a ha => ?_
  by_cases hne : a = b
  · subst hne
    exact .inr h1
  · have := hinv.disjoint ha hb hne
    have := hinv.min_le ha
    unfold minBlock at this
    omega

theorem blockSize_eq (h : Retagged m m' cs) (hinv : ClustersTiled m cs) (hb : Block m cs b) :
    blockSize m' b = blockSize m b := by
  have := hinv.min_le hb
  unfold minBlock at this
  exact rd_congr fun x h1 h2 => h.bytes hinv hb h1 (by omega)

theorem block_iff (h : Retagged m m' cs) (hinv : ClustersTiled m cs) :
    Block m' cs b ↔ Block m cs b := hinv.block_congr fun _ hb => h.blockSize_eq hinv hb

theorem live_iff (h : Retagged m m' cs) (hinv : ClustersTiled m cs) :
    Live m' cs b ↔ Live m cs b := by
  unfold Live
  rw [h.block_iff hinv]
  exact and_congr_right fun hb => by rw [h.isFree_eq hb]

/-- The walk of a cluster is the same. -/
theorem cluster (h : Retagged m m' cs) (hinv : ClustersTiled m cs) {c : Cluster} {bs : List Nat}
    (hc : c ∈ cs) (hc' : ClusterTiled m c bs) : ClusterTiled m' c bs :=
  hc'.congr fun _ hb => h.blockSize_eq hinv (hc'.block hc hb)

theorem clusters (h : Retagged m m' cs) (hinv : ClustersTiled m cs) : ClustersTiled m' cs where
  separate := hinv.separate
  each c hc := by
    obtain ⟨bs, hc'⟩ := hinv.each c hc
    exact ⟨bs, h.cluster hinv hc hc'⟩

/-- The free lists are the same, and nothing changed behind the blocks. -/
theorem clustersInv {held : Nat → Prop} (h : Retagged m m' cs) (hinv : ClustersInv m cs held) :
    ClustersInv m' cs held where
  separate := hinv.separate
  each c hc := by
    obtain ⟨bs, fl, hc'⟩ := hinv.each c hc
    have hblock : ∀ b ∈ bs, Block m cs b := fun b hb => hc'.block hc hb
    refine ⟨bs, fl, hc'.congr (fun b hb => h.blockSize_eq hinv.tiled (hblock b hb))
      (fun b hb _ => h.isFree_eq (hblock b hb)) (fun b hb => ?_) fun x h1 h2 => ?_⟩
    · have hb' := hblock b (hc'.mem_of_free hb)
      have := hinv.tiled.min_le hb'
      unfold minBlock at this
      exact rd_congr fun x h1 h2 => h.bytes hinv.tiled hb' (by unfold headerSize at h1; omega)
        (by unfold headerSize at h2; omega)
    · refine h.frame x fun a ha => ?_
      have := hinv.tiled.min_le ha
      have := hinv.tiled.apart_of_outside hc h1 h2 ha
      unfold minBlock at *
      omega

theorem trans (h : Retagged m m' cs) (hinv : ClustersTiled m cs) (h' : Retagged m' m'' cs) :
    Retagged m m'' cs where
  tag b hb := (h'.tag b ((h.block_iff hinv).2 hb)).trans (h.tag b hb)
  frame x hx := (h'.frame x fun b hb => hx b ((h.block_iff hinv).1 hb)).trans (h.frame x hx)

/-- Storing a tag that differs in the mark only. -/
theorem wr (hinv : ClustersTiled m cs) (hb : Block m cs b) (hv : clearMark v = clearMark (tagOf m b))
    (hlt : v < 2 ^ 64) :
    Retagged m (wr m b v) cs ∧ tagOf (Gc.wr m b v) b = v ∧
      ∀ a, Block m cs a → a ≠ b → tagOf (Gc.wr m b v) a = tagOf m a := by
  have hself : tagOf (Gc.wr m b v) b = v := tagOf_wr_self hlt
  have hother : ∀ a, Block m cs a → a ≠ b → tagOf (Gc.wr m b v) a = tagOf m a := by
    intro a ha hne
    have := hinv.apart ha hb hne
    unfold Apart minBlock at this
    exact (header_wr (by omega)).1
  refine ⟨⟨fun a ha => ?_, fun x hx => wr_of_apart (hx b hb)⟩, hself, hother⟩
  by_cases hne : a = b
  · rw [hne, hself, hv]
  · rw [hother a ha hne]

end Retagged

end NewM2.Gc
