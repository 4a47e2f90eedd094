import NewM2.Gc.Inv

/-! # Resolving interior pointers

`blockStartAtOrBelow` finds the last block start at or below an offset, so `resolve` finds exactly the
allocated block whose payload contains the address (`resolve_eq_some_iff`). -/

namespace NewM2.Gc

/-- `i` is the highest set bit at or below `bit`. -/
def LastBit (bm : Bitmap) (bit i : Nat) : Prop :=
  i ≤ bit ∧ bm.testBit i = true ∧ ∀ j, i < j → j ≤ bit → bm.testBit j = false

theorem LastBit.unique {bm : Bitmap} {bit i j : Nat} (hi : LastBit bm bit i) (hj : LastBit bm bit j) :
    i = j := by
  rcases Nat.lt_trichotomy i j with h | h | h
  · exact absurd hj.2.1 (by simp [hi.2.2 j h hj.1])
  · exact h
  · exact absurd hi.2.1 (by simp [hj.2.2 i h hi.1])

section bits
variable {bm : Bitmap} {w k i j : Nat}

theorem testBit_eq_word (h : j / 64 = w) : bm.testBit j = (bm.word w).getLsbD (j % 64) := by
  subst h; rfl

/-- The word at `w` cut behind bit `k`, when some bit is left. -/
theorem lastBit_word (hk : k < 64) (hne : bm.word w &&& Bitmap.lowMask k ≠ 0) :
    LastBit bm (w * 64 + k) (w * 64 + Bitmap.topBit (bm.word w &&& Bitmap.lowMask k)) := by
  have hlt := Bitmap.topBit_lt (bm.word w &&& Bitmap.lowMask k)
  obtain ⟨hset, habove⟩ := Bitmap.topBit_spec hne
  generalize Bitmap.topBit (bm.word w &&& Bitmap.lowMask k) = top at *
  rw [BitVec.getLsbD_and, Bitmap.getLsbD_lowMask _ hk, Bool.and_eq_true, decide_eq_true_eq] at hset
  refine ⟨by omega, ?_, fun j h1 h2 => ?_⟩
  · rw [testBit_eq_word (w := w) (by omega), show (w * 64 + top) % 64 = top by omega]
    exact hset.1
  · have hj := habove (j % 64) (by omega)
    rw [BitVec.getLsbD_and, Bitmap.getLsbD_lowMask _ hk, decide_eq_true (by omega), Bool.and_true] at hj
    rw [testBit_eq_word (w := w) (by omega)]
    exact hj

theorem testBit_of_word_eq_zero (hk : k < 64) (hz : bm.word w &&& Bitmap.lowMask k = 0) (h1 : w * 64 ≤ j)
    (h2 : j ≤ w * 64 + k) : bm.testBit j = false := by
  have hj : (bm.word w &&& Bitmap.lowMask k).getLsbD (j % 64) = false := by rw [hz]; simp
  rw [BitVec.getLsbD_and, Bitmap.getLsbD_lowMask _ hk, decide_eq_true (by omega), Bool.and_true] at hj
  rw [testBit_eq_word (w := w) (by omega)]
  exact hj

theorem and_lowMask_63 (v : BitVec 64) : v &&& Bitmap.lowMask 63 = v := by
  unfold Bitmap.lowMask
  rw [if_pos rfl, BitVec.and_allOnes]

theorem scanDown_eq (w : Nat) (hset : i < w * 64) (hbit : bm.testBit i = true) :
    ∃ t, Cluster.scanDown bm w = some (t * blockAlign) ∧ LastBit bm (w * 64 - 1) t := by
  induction w with
  | zero => omega
  | succ w ih =>
    unfold Cluster.scanDown
    by_cases hne : bm.word w ≠ 0
    · rw [if_pos hne]
      rw [← and_lowMask_63 (bm.word w)] at hne ⊢
      refine ⟨_, rfl, ?_⟩
      rw [show (w + 1) * 64 - 1 = w * 64 + 63 by omega]
      exact lastBit_word (by decide) hne
    · rw [if_neg hne]
      rw [not_not, ← and_lowMask_63 (bm.word w)] at hne
      have hlt : i < w * 64 := by
        by_contra hge
        rw [testBit_of_word_eq_zero (by decide) hne (by omega) (by omega)] at hbit
        cases hbit
      obtain ⟨t, hres, h1, h2, h3⟩ := ih hlt
      refine ⟨t, hres, by omega, h2, fun j hj1 hj2 => ?_⟩
      by_cases hj : j ≤ w * 64 - 1
      · exact h3 j hj1 hj
      · exact testBit_of_word_eq_zero (by decide) hne (by omega) (by omega)

end bits

namespace Cluster
variable {m : Mem} {c : Cluster} {addr offset i : Nat}

/-- The index of the last block that can start at or below `offset`. -/
def lastIndex (c : Cluster) (offset : Nat) : Nat := min offset (c.bump - blockAlign) / blockAlign

theorem blockStartAtOrBelow_eq (hset : i ≤ c.lastIndex offset) (hbit : c.blockStarts.testBit i = true) :
    ∃ t, c.blockStartAtOrBelow offset = some (t * blockAlign) ∧
      LastBit c.blockStarts (c.lastIndex offset) t := by
  unfold Cluster.blockStartAtOrBelow lastIndex at *
  generalize min offset (c.bump - blockAlign) / blockAlign = bit at *
  have hk : bit % 64 < 64 := Nat.mod_lt _ (by decide)
  have hsplit : bit = bit / 64 * 64 + bit % 64 := by omega
  dsimp only
  generalize bit / 64 = w, bit % 64 = k at *
  subst hsplit
  by_cases hne : c.blockStarts.word w &&& Bitmap.lowMask k ≠ 0
  · rw [if_pos hne]
    exact ⟨_, rfl, lastBit_word hk hne⟩
  · rw [if_neg hne]
    rw [not_not] at hne
    have hlt : i < w * 64 := by
      by_contra hge
      rw [testBit_of_word_eq_zero hk hne (by omega) hset] at hbit
      cases hbit
    obtain ⟨t, hres, h1, h2, h3⟩ := scanDown_eq w hlt hbit
    refine ⟨t, hres, by omega, h2, fun j hj1 hj2 => ?_⟩
    by_cases hj : j ≤ w * 64 - 1
    · exact h3 j hj1 hj
    · exact testBit_of_word_eq_zero hk hne (by omega) hj2

end Cluster

namespace ClusterTiled
variable {m : Mem} {c : Cluster} {addr p b : Nat} {bs : List Nat}

/-- The block start found for an address of the cluster is the start of the block it lies in. -/
theorem blockStartAtOrBelow (h : ClusterTiled m c bs) (hb : b ∈ bs) (h1 : b ≤ addr)
    (h2 : addr < b + blockSize m b) : c.blockStartAtOrBelow (addr - c.base) = some (b - c.base) := by
  have hr := h.range hb
  have halign := h.aligned
  have hbase := h.base_align
  have hb16 := halign.2 b hb
  have hbump16 := halign.1
  have hidx : c.base + blockAlign * ((b - c.base) / blockAlign) = b := by
    unfold blockAlign at *
    omega
  have hbit : c.blockStarts.testBit ((b - c.base) / blockAlign) = true :=
    (h.starts _).2 (by rwa [hidx])
  have hle : (b - c.base) / blockAlign ≤ c.lastIndex (addr - c.base) := by
    unfold Cluster.lastIndex
    refine Nat.div_le_div_right ?_
    unfold blockAlign minBlock at *
    omega
  obtain ⟨t, hres, ht1, ht2, ht3⟩ := Cluster.blockStartAtOrBelow_eq hle hbit
  -- the start found lies between the start of `b` and the address
  have htb := (h.starts t).1 ht2
  have hge : (b - c.base) / blockAlign ≤ t := by
    by_contra hlt
    have := ht3 _ (Nat.lt_of_not_le hlt) hle
    rw [hbit] at this
    cases this
  have hmax : blockAlign * t ≤ addr - c.base := by
    have : blockAlign * c.lastIndex (addr - c.base) ≤ addr - c.base := by
      unfold Cluster.lastIndex blockAlign
      omega
    unfold blockAlign at *
    omega
  have heq : c.base + blockAlign * t = b :=
    h.tiled.eq_of_mem_tile hb htb (by unfold blockAlign at *; omega) (by omega)
  rw [hres, Nat.mul_comm]
  congr 1
  omega

theorem resolve_eq_some_iff (h : ClusterTiled m c bs) :
    c.resolve m addr = some p ↔
      ∃ b ∈ bs, ¬ isFree (tagOf m b) ∧ b + headerSize ≤ addr ∧ addr < b + blockSize m b ∧
        p = b + headerSize := by
  unfold Cluster.resolve
  by_cases hin : c.contains addr
  · have hin' : c.base ≤ addr ∧ addr < c.base + c.bump := by
      simpa [Cluster.contains] using hin
    obtain ⟨b, hb, h1, h2⟩ := h.tiled.exists_tile hin'.1 hin'.2
    have hr := h.range hb
    have hblock : c.base + (b - c.base) = b := by omega
    rw [if_neg (by simpa using hin), h.blockStartAtOrBelow hb h1 h2]
    simp only [hblock]
    rw [if_neg (by omega), if_neg (by omega)]
    have honly : ∀ b' ∈ bs, b' + headerSize ≤ addr → addr < b' + blockSize m b' → b' = b := by
      intro b' hb' h1' h2'
      by_contra hne
      have := h.disjoint hb' hb hne
      omega
    constructor
    · intro hres
      split at hres
      · cases hres
      · next hfree =>
        split at hres
        · cases hres
        · exact ⟨b, hb, by simpa using hfree, by omega, h2, (Option.some.inj hres).symm⟩
    · rintro ⟨b', hb', hfree, h1', h2', rfl⟩
      obtain rfl := honly b' hb' h1' h2'
      rw [if_neg hfree, if_neg (by omega)]
  · rw [if_pos hin]
    constructor
    · intro hres
      cases hres
    rintro ⟨b, hb, -, h1, h2, -⟩
    have hr := h.range hb
    refine absurd ?_ hin
    simp only [Cluster.contains, Bool.and_eq_true, decide_eq_true_eq]
    omega

/-- `addr` lies in the payload of `b`, a block of `bs` that is not free. -/
def InPayload (m : Mem) (bs : List Nat) (addr b : Nat) : Prop :=
  b ∈ bs ∧ ¬ isFree (tagOf m b) ∧ b + headerSize ≤ addr ∧ addr < b + blockSize m b

theorem InPayload.unique (h : ClusterTiled m c bs) {b' : Nat} (hb : InPayload m bs addr b)
    (hb' : InPayload m bs addr b') : b' = b := by
  by_contra hne
  have hdisjoint := h.disjoint hb'.1 hb.1 hne
  obtain ⟨-, -, hlo, hhi⟩ := hb
  obtain ⟨-, -, hlo', hhi'⟩ := hb'
  omega

/-- The scan begins within the words of the bitmap, and goes down. -/
theorem lastIndex_lt (h : ClusterTiled m c bs) (hin : c.contains addr = true) :
    c.lastIndex (addr - c.base) / 64 < c.blockStarts.length := by
  simp only [Cluster.contains, Bool.and_eq_true, decide_eq_true_eq] at hin
  have hbump := h.bump_le
  have halign := h.aligned.1
  have hbase := h.base_align
  rw [h.words, Cluster.lastIndex]
  unfold blockAlign at *
  omega

/-- The result is the payload of the only block that is not free and has the address in its payload, or there is
no such block. -/
theorem resolve_exact (h : ClusterTiled m c bs) (addr : Nat) :
    (∀ b, InPayload m bs addr b →
      c.resolve m addr = some (b + headerSize) ∧ ∀ b', InPayload m bs addr b' → b' = b) ∧
    ((∀ b, ¬ InPayload m bs addr b) → c.resolve m addr = none) ∧
    (c.contains addr = true → c.lastIndex (addr - c.base) / 64 < c.blockStarts.length) := by
  refine ⟨fun b hb => ⟨?_, fun b' hb' => hb.unique h hb'⟩, fun hnone => ?_, h.lastIndex_lt⟩
  · exact h.resolve_eq_some_iff.2 ⟨b, hb.1, hb.2.1, hb.2.2.1, hb.2.2.2, rfl⟩
  · cases hres : c.resolve m addr with
    | none => rfl
    | some p =>
      obtain ⟨b, hb, hfree, hlo, hhi, -⟩ := h.resolve_eq_some_iff.1 hres
      exact absurd ⟨hb, hfree, hlo, hhi⟩ (hnone b)

/-- A block of 1536 bytes at 4096, and behind it a free one of 64. -/
def twoBlocks : Mem := fun x =>
  if x = 4096 then 2 else if x = 4105 then 6 else if x = 5640 then 64 else 0

def twoStarts : Cluster := ⟨4096, 2048, 1600, 5632, [1#64, 1#64 <<< 32]⟩

theorem twoStarts_tiled : ClusterTiled twoBlocks twoStarts [4096, 5632] := by
  have hlarge : blockSize twoBlocks 4096 = 1536 := by decide +kernel
  have hsmall : blockSize twoBlocks 5632 = 64 := by decide +kernel
  refine ⟨by decide, by decide, by decide, by decide, by decide, ?_, by decide +kernel, fun i => ?_⟩
  · rw [Tiled.cons_iff, Tiled.cons_iff, Tiled.nil_iff, hlarge, hsmall]
    decide
  · rcases Nat.lt_or_ge i 128 with hlt | hge
    · have hall : ∀ j < 128, twoStarts.blockStarts.testBit j = true ↔
          twoStarts.base + blockAlign * j ∈ [4096, 5632] := by decide +kernel
      exact hall i hlt
    · have hword : twoStarts.blockStarts.word (i / 64) = 0 := by
        rw [Bitmap.word, List.getD_eq_default]
        change 2 ≤ i / 64
        omega
      rw [Bitmap.testBit, hword]
      simp [twoStarts, blockAlign]
      omega

/-- An address far behind the start of its block, in another word of the bitmap. -/
theorem resolve_twoBlocks : twoStarts.resolve twoBlocks 5600 = some 4112 :=
  ((resolve_exact twoStarts_tiled 5600).1 4096 ⟨by decide, by decide +kernel, by decide, by decide +kernel⟩).1

end ClusterTiled
end NewM2.Gc
