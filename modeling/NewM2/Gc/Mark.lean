import Mathlib.Data.Finset.Card
import Mathlib.Data.List.TakeWhile
import NewM2.Gc.Blocks
import NewM2.Gc.Resolve

/-! # Marking

`markLoop` follows the pointer fields of the blocks it marks with a worklist. `MarkInv` is its loop
invariant: a child of a marked block is marked or waits in the worklist. So, from unmarked blocks, the
marks that remain when the worklist is empty contain the roots and are closed under pointer fields.
They are no more than that: a set of blocks that contains the roots and is closed under pointer fields
contains all that is marked. -/

namespace NewM2.Gc

/-- A null pointer or the payload start of an allocated block. -/
def PtrOk (m : Mem) (cs : List Cluster) (p : Nat) : Prop :=
  p = 0 ∨ ∃ b, Live m cs b ∧ p = b + headerSize

/-- The values of the pointer fields of a block. -/
def pointerFields (m : Mem) (descs : Nat → TypeDesc) (b : Nat) : List Nat :=
  (descs (clearMark (tagOf m b))).pointerOffsets.map fun o => rd m (b + headerSize + o.toNat)

/-- A descriptor whose pointer offsets lie inside the payload. -/
def TypeDesc.WellFormed (td : TypeDesc) : Prop := ∀ o ∈ td.pointerOffsets, 0 ≤ o ∧ o + 8 ≤ td.size

/-- The tag of `b` is a registered, well-formed descriptor whose payload fits the block. -/
structure WellTyped (m : Mem) (reg : Registry) (descs : Nat → TypeDesc) (b : Nat) : Prop where
  registered : (reg (clearMark (tagOf m b))).isSome
  wellFormed : (descs (clearMark (tagOf m b))).WellFormed
  size_le : (descs (clearMark (tagOf m b))).size + headerSize ≤ blockSize m b

/-- All allocated blocks are well typed and their pointer fields hold null or payload starts. -/
structure ObjectsOk (m : Mem) (cs : List Cluster) (reg : Registry) (descs : Nat → TypeDesc) : Prop where
  typed : ∀ b, Live m cs b → WellTyped m reg descs b
  fields : ∀ b, Live m cs b → ∀ p ∈ pointerFields m descs b, PtrOk m cs p

section objects
variable {m m' : Mem} {cs : List Cluster} {reg : Registry} {descs : Nat → TypeDesc}
  {b p : Nat}

/-- `mark_object` visits all pointer fields that are not null. -/
theorem WellTyped.children_eq (h : WellTyped m reg descs b) (hf : ¬ isFree (tagOf m b)) :
    children m reg descs b = (pointerFields m descs b).filter (· ≠ 0) := by
  have htd : clearMark (tagOf m b) ≠ 0 := by simpa [isFree] using hf
  have hreg : ¬ (reg (clearMark (tagOf m b))).isNone := by
    rw [Option.isNone_iff_eq_none, ← Option.not_isSome_iff_eq_none, not_not]
    exact h.registered
  have hsize := h.size_le
  unfold children pointerFields
  rw [if_neg htd, if_neg hreg]
  dsimp only
  split
  · next hbad =>
    have hnil : (descs (clearMark (tagOf m b))).pointerOffsets = [] := by
      refine List.eq_nil_iff_forall_not_mem.2 fun o ho => ?_
      have := h.wellFormed o ho
      unfold headerSize at *
      omega
    rw [hnil]
    rfl
  · next hgood =>
    rw [List.takeWhile_eq_self_iff.2 fun o ho => ?_]
    have := h.wellFormed o ho
    rw [decide_eq_true_eq]
    unfold headerSize at *
    omega

theorem pointerFields_retagged (h : Retagged m m' cs) (hinv : ClustersTiled m cs)
    (hb : Live m cs b) (ht : WellTyped m reg descs b) :
    pointerFields m' descs b = pointerFields m descs b := by
  unfold pointerFields
  rw [h.tag b hb.1]
  refine List.map_congr_left fun o ho => rd_congr fun x h1 h2 => h.bytes hinv hb.1 ?_ ?_
  · unfold headerSize at h1
    omega
  · have := ht.wellFormed o ho
    have := ht.size_le
    unfold headerSize at *
    omega

theorem WellTyped.retagged (h : Retagged m m' cs) (hinv : ClustersTiled m cs) (hb : Live m cs b)
    (ht : WellTyped m reg descs b) : WellTyped m' reg descs b := by
  obtain ⟨h1, h2, h3⟩ := ht
  rw [← h.tag b hb.1] at h1 h2 h3
  exact ⟨h1, h2, by rwa [h.blockSize_eq hinv hb.1]⟩

theorem PtrOk.retagged (h : Retagged m m' cs) (hinv : ClustersTiled m cs) :
    PtrOk m' cs p ↔ PtrOk m cs p := by
  unfold PtrOk
  simp only [h.live_iff hinv]

theorem ObjectsOk.retagged (h : Retagged m m' cs) (hinv : ClustersTiled m cs)
    (ho : ObjectsOk m cs reg descs) : ObjectsOk m' cs reg descs where
  typed b hb := by
    rw [h.live_iff hinv] at hb
    exact (ho.typed b hb).retagged h hinv hb
  fields b hb p hp := by
    rw [h.live_iff hinv] at hb
    rw [pointerFields_retagged h hinv hb (ho.typed b hb)] at hp
    exact (PtrOk.retagged h hinv).2 (ho.fields b hb p hp)

end objects

/-! ## Clearing the marks -/

section clear
variable {m : Mem} {cs : List Cluster} {c : Cluster} {bs : List Nat}

/-- A phase that changes marks only and marks nothing. -/
structure Clears (m m' : Mem) (cs : List Cluster) : Prop extends Retagged m m' cs where
  unmarked : ∀ b, Block m cs b → isMarked (tagOf m b) = false → isMarked (tagOf m' b) = false

theorem Clears.trans {m' m'' : Mem} (hinv : ClustersTiled m cs) (h : Clears m m' cs)
    (h' : Clears m' m'' cs) : Clears m m'' cs :=
  ⟨h.toRetagged.trans hinv h'.toRetagged, fun b hb hm =>
    h'.unmarked b ((h.toRetagged.block_iff hinv).2 hb) (h.unmarked b hb hm)⟩

theorem clearMarksFrom_spec {offset fuel : Nat} (hinv : ClustersTiled m cs) (hc : c ∈ cs)
    (hok : ClusterTiled m c bs) (hhere : offset = c.bump ∨ c.base + offset ∈ bs)
    (hfuel : c.bump ≤ offset + fuel) :
    Clears m (clearMarksFrom c fuel offset m) cs ∧
      ∀ b ∈ bs, c.base + offset ≤ b → isMarked (tagOf (clearMarksFrom c fuel offset m) b) = false := by
  induction fuel generalizing m offset with
  | zero =>
    refine ⟨⟨Retagged.refl m cs, fun _ _ h => h⟩, fun b hb hge => ?_⟩
    have := hok.range hb
    unfold minBlock at this
    omega
  | succ fuel ih =>
    unfold clearMarksFrom
    by_cases hle : c.bump ≤ offset
    · rw [if_pos hle]
      refine ⟨⟨Retagged.refl m cs, fun _ _ h => h⟩, fun b hb hge => ?_⟩
      have := hok.range hb
      unfold minBlock at this
      omega
    rw [if_neg hle]
    have hmem : c.base + offset ∈ bs := hhere.resolve_left (by omega)
    have hr := hok.range hmem
    have hblock := hok.block hc hmem
    dsimp only
    rw [if_neg (by omega)]
    obtain ⟨hretag, hself, hother⟩ := Retagged.wr hinv hblock
      (clearMark_clearMark (tagOf m (c.base + offset))) (lt_of_le_of_lt (clearMark_le _) (rd_lt _ _))
    have hsize := hretag.blockSize_eq hinv hblock
    have hclears : Clears m (wr m (c.base + offset) (clearMark (tagOf m (c.base + offset)))) cs := by
      refine ⟨hretag, fun b hb hm => ?_⟩
      by_cases hne : b = c.base + offset
      · rw [hne, hself]
        exact isMarked_clearMark _
      · rwa [hother b hb hne]
    have hnext : offset + blockSize m (c.base + offset) = c.bump ∨
        c.base + (offset + blockSize m (c.base + offset)) ∈ bs := by
      rw [← Nat.add_assoc]
      exact (hok.tiled.next hmem).imp_left (by omega)
    unfold minBlock at hr
    obtain ⟨hrest, hmarks⟩ := ih (hretag.clusters hinv) (hretag.cluster hinv hc hok) hnext (by omega)
    rw [hsize]
    refine ⟨hclears.trans hinv hrest, fun b hb hge => ?_⟩
    by_cases hne : b = c.base + offset
    · refine hrest.unmarked b ((hretag.block_iff hinv).2 (hne ▸ hblock)) ?_
      rw [hne, hself]
      exact isMarked_clearMark _
    · refine hmarks b hb ?_
      have := hok.disjoint hb hmem hne
      have := hok.range hb
      unfold minBlock at this
      omega

theorem clearMarks_spec (hinv : ClustersTiled m cs) :
    Retagged m (clearMarks m cs) cs ∧ ∀ b, Block m cs b → isMarked (tagOf (clearMarks m cs) b) = false := by
  have hfold : ∀ ds : List Cluster, (∀ d ∈ ds, d ∈ cs) → ∀ m, ClustersTiled m cs →
      Clears m (clearMarks m ds) cs ∧
        ∀ d ∈ ds, ∀ bs, ClusterTiled m d bs → ∀ b ∈ bs, isMarked (tagOf (clearMarks m ds) b) = false := by
    intro ds hsub
    induction ds with
    | nil => exact fun m _ => ⟨⟨Retagged.refl m cs, fun _ _ h => h⟩, fun d hd => by cases hd⟩
    | cons d ds ih =>
      intro m hinv
      have hd : d ∈ cs := hsub d (List.mem_cons_self ..)
      obtain ⟨bs, hok⟩ := hinv.each d hd
      have hfirst : 0 = d.bump ∨ d.base + 0 ∈ bs := hok.tiled.first.imp_left (by omega)
      obtain ⟨hclears, hmarks⟩ := clearMarksFrom_spec hinv hd hok hfirst (Nat.le_add_left ..)
      have hinv' := hclears.toRetagged.clusters hinv
      obtain ⟨hclears', hmarks'⟩ := ih (fun e he => hsub e (List.mem_cons_of_mem _ he)) _ hinv'
      refine ⟨hclears.trans hinv hclears', fun e he bs' hok' b hb => ?_⟩
      rcases List.mem_cons.1 he with rfl | he
      · obtain rfl := hok'.tiled.unique hok.tiled
        have hblock := hok'.block hd hb
        exact hclears'.unmarked b ((hclears.toRetagged.block_iff hinv).2 hblock)
          (hmarks b hb (hok'.range hb).1)
      · exact hmarks' e he bs' (hclears.toRetagged.cluster hinv (hsub e (by simp [he])) hok') b hb
  obtain ⟨hclears, hmarks⟩ := hfold cs (fun _ h => h) m hinv
  refine ⟨hclears.toRetagged, fun b hb => ?_⟩
  obtain ⟨c, hc, bs, hok, hmem⟩ := hinv.exists_cluster hb
  exact hmarks c hc bs hok b hmem

end clear

/-! ## The mark loop -/

/-- Only marks were added. -/
structure Marks (m m' : Mem) (cs : List Cluster) : Prop extends Retagged m m' cs where
  marked : ∀ b, Block m cs b → isMarked (tagOf m b) → isMarked (tagOf m' b)

/-- The loop invariant of `mark_object`, with a set `R` of blocks that marking does not leave. -/
structure MarkInv (m : Mem) (cs : List Cluster) (reg : Registry) (descs : Nat → TypeDesc)
    (R : Nat → Prop) (work : List Nat) : Prop where
  clusters : ClustersTiled m cs
  objects : ObjectsOk m cs reg descs
  pending : ∀ p ∈ work, PtrOk m cs p
  closed : ∀ b, Live m cs b → isMarked (tagOf m b) → ∀ p ∈ pointerFields m descs b,
    p = 0 ∨ isMarked (tagOf m (p - headerSize)) ∨ p ∈ work
  pendingIn : ∀ p ∈ work, p ≠ 0 → R (p - headerSize)
  markedIn : ∀ b, Live m cs b → isMarked (tagOf m b) → R b
  fieldsIn : ∀ b, Live m cs b → R b → ∀ p ∈ pointerFields m descs b, p ≠ 0 → R (p - headerSize)

section mark
variable {m m' m'' : Mem} {cs : List Cluster} {reg : Registry} {descs : Nat → TypeDesc}
  {R : Nat → Prop} {work : List Nat} {b p w : Nat}

theorem Marks.refl (m : Mem) (cs : List Cluster) : Marks m m cs := ⟨Retagged.refl m cs, fun _ _ h => h⟩

theorem Marks.trans (hinv : ClustersTiled m cs) (h : Marks m m' cs) (h' : Marks m' m'' cs) :
    Marks m m'' cs :=
  ⟨h.toRetagged.trans hinv h'.toRetagged, fun b hb hm =>
    h'.marked b ((h.toRetagged.block_iff hinv).2 hb) (h.marked b hb hm)⟩

/-- Popping a pointer that needs no work. -/
theorem MarkInv.pop (h : MarkInv m cs reg descs R (p :: work))
    (hp : p = 0 ∨ isMarked (tagOf m (p - headerSize))) : MarkInv m cs reg descs R work where
  clusters := h.clusters
  objects := h.objects
  pending q hq := h.pending q (List.mem_cons_of_mem _ hq)
  closed b hb hm q hq := by
    rcases h.closed b hb hm q hq with h' | h' | h'
    · exact .inl h'
    · exact .inr (.inl h')
    · rcases List.mem_cons.1 h' with rfl | h'
      · exact hp.imp_right .inl
      · exact .inr (.inr h')
  pendingIn q hq := h.pendingIn q (List.mem_cons_of_mem _ hq)
  markedIn := h.markedIn
  fieldsIn := h.fieldsIn

/-- Marking a block and pushing its children. -/
theorem MarkInv.visit (h : MarkInv m cs reg descs R ((b + headerSize) :: work)) (hb : Live m cs b) :
    Marks m (wr m b (setMark (tagOf m b))) cs ∧ isMarked (tagOf (wr m b (setMark (tagOf m b))) b) ∧
      MarkInv (wr m b (setMark (tagOf m b))) cs reg descs R
        ((children (wr m b (setMark (tagOf m b))) reg descs b).reverse ++ work) := by
  obtain ⟨hretag, hself, hother⟩ := Retagged.wr h.clusters hb.1 (clearMark_setMark (tagOf m b))
    (setMark_lt (rd_lt _ _))
  generalize wr m b (setMark (tagOf m b)) = m' at *
  have hmark : isMarked (tagOf m' b) := by rw [hself]; exact isMarked_setMark _
  have hmarks : Marks m m' cs := by
    refine ⟨hretag, fun a ha hm => ?_⟩
    by_cases hne : a = b
    · rw [hne]
      exact hmark
    · rwa [hother a ha hne]
  have hobjects := h.objects.retagged hretag h.clusters
  have hb' : Live m' cs b := (hretag.live_iff h.clusters).2 hb
  have hchildren := (hobjects.typed b hb').children_eq hb'.2
  have hR : R b := by
    have := h.pendingIn _ (List.mem_cons_self ..) (by unfold headerSize; omega)
    rwa [Nat.add_sub_cancel] at this
  have hfields : ∀ a, Live m' cs a → R a → ∀ p ∈ pointerFields m' descs a, p ≠ 0 →
      R (p - headerSize) := fun a ha hRa p hp => by
    have ha' : Live m cs a := (hretag.live_iff h.clusters).1 ha
    rw [pointerFields_retagged hretag h.clusters ha' (h.objects.typed a ha')] at hp
    exact h.fieldsIn a ha' hRa p hp
  refine ⟨hmarks, hmark, hretag.clusters h.clusters, hobjects, fun p hp => ?_, fun a ha hm p hp => ?_,
    fun p hp hp0 => ?_, fun a ha hm => ?_, hfields⟩
  · rcases List.mem_append.1 hp with hp | hp
    · rw [List.mem_reverse, hchildren, List.mem_filter] at hp
      exact hobjects.fields b hb' p hp.1
    · exact (PtrOk.retagged hretag h.clusters).2 (h.pending p (List.mem_cons_of_mem _ hp))
  · by_cases hp0 : p = 0
    · exact .inl hp0
    refine .inr ?_
    by_cases hne : a = b
    · subst hne
      refine .inr (List.mem_append_left _ ?_)
      rw [List.mem_reverse, hchildren, List.mem_filter]
      exact ⟨hp, decide_eq_true hp0⟩
    · have ha' : Live m cs a := (hretag.live_iff h.clusters).1 ha
      rw [hother a ha'.1 hne] at hm
      rw [pointerFields_retagged hretag h.clusters ha' (h.objects.typed a ha')] at hp
      rcases h.closed a ha' hm p hp with h' | h' | h'
      · exact absurd h' hp0
      · obtain ⟨d, hd, rfl⟩ := (h.objects.fields a ha' p hp).resolve_left hp0
        rw [Nat.add_sub_cancel] at h' ⊢
        exact .inl (hmarks.marked d hd.1 h')
      · rcases List.mem_cons.1 h' with rfl | h'
        · rw [Nat.add_sub_cancel]
          exact .inl hmark
        · exact .inr (List.mem_append_right _ h')
  · rcases List.mem_append.1 hp with hp | hp
    · rw [List.mem_reverse, hchildren, List.mem_filter] at hp
      exact hfields b hb' hR p hp.1 hp0
    · exact h.pendingIn p (List.mem_cons_of_mem _ hp) hp0
  · by_cases hne : a = b
    · exact hne ▸ hR
    · have ha' : Live m cs a := (hretag.live_iff h.clusters).1 ha
      rw [hother a ha'.1 hne] at hm
      exact h.markedIn a ha' hm

theorem markLoop_spec {fuel : Nat} (h : MarkInv m cs reg descs R work)
    (hres : markLoop reg descs fuel m work = some m') :
    Marks m m' cs ∧ MarkInv m' cs reg descs R [] ∧
      ∀ p ∈ work, p ≠ 0 → isMarked (tagOf m' (p - headerSize)) := by
  induction fuel generalizing m work with
  | zero =>
    obtain _ | ⟨p, work⟩ := work
    · cases hres
      exact ⟨Marks.refl _ cs, h, fun p hp => by cases hp⟩
    · cases hres
  | succ fuel ih =>
    obtain _ | ⟨p, work⟩ := work
    · cases hres
      exact ⟨Marks.refl _ cs, h, fun p hp => by cases hp⟩
    unfold markLoop at hres
    by_cases hp0 : p = 0
    · rw [if_pos hp0] at hres
      obtain ⟨h1, h2, h3⟩ := ih (h.pop (.inl hp0)) hres
      refine ⟨h1, h2, fun q hq hq0 => ?_⟩
      rcases List.mem_cons.1 hq with rfl | hq
      · exact absurd hp0 hq0
      · exact h3 q hq hq0
    rw [if_neg hp0] at hres
    obtain ⟨b, hb, rfl⟩ := (h.pending p (List.mem_cons_self ..)).resolve_left hp0
    simp only [Nat.add_sub_cancel] at hres
    by_cases hdone : isMarked (tagOf m b) ∨ isFree (tagOf m b)
    · rw [if_pos hdone] at hres
      have hm : isMarked (tagOf m b) := hdone.resolve_right hb.2
      obtain ⟨h1, h2, h3⟩ := ih (h.pop (.inr (by rwa [Nat.add_sub_cancel]))) hres
      refine ⟨h1, h2, fun q hq hq0 => ?_⟩
      rcases List.mem_cons.1 hq with rfl | hq
      · rw [Nat.add_sub_cancel]
        exact h1.marked b hb.1 hm
      · exact h3 q hq hq0
    · rw [if_neg hdone] at hres
      obtain ⟨hmarks, hmark, hinv⟩ := h.visit hb
      obtain ⟨h1, h2, h3⟩ := ih hinv hres
      refine ⟨hmarks.trans h.clusters h1, h2, fun q hq hq0 => ?_⟩
      rcases List.mem_cons.1 hq with rfl | hq
      · rw [Nat.add_sub_cancel]
        exact h1.marked b ((hmarks.toRetagged.block_iff h.clusters).2 hb.1) hmark
      · exact h3 q (List.mem_append_right _ hq) hq0

/-- Only words that point into the payload of an allocated block resolve. -/
theorem resolveHeapPtr_eq_some_iff (h : ClustersTiled m cs) :
    resolveHeapPtr m cs w = some p ↔
      ∃ b, Live m cs b ∧ b + headerSize ≤ w ∧ w < b + blockSize m b ∧ p = b + headerSize := by
  have hsound : ∀ c ∈ cs, ∀ q, c.resolve m w = some q →
      ∃ b, Live m cs b ∧ b + headerSize ≤ w ∧ w < b + blockSize m b ∧ q = b + headerSize := by
    intro c hc q hq
    obtain ⟨bs, hok⟩ := h.each c hc
    obtain ⟨b, hb, hf, h1, h2, rfl⟩ := hok.resolve_eq_some_iff.1 hq
    exact ⟨b, ⟨hok.block hc hb, hf⟩, h1, h2, rfl⟩
  unfold resolveHeapPtr
  constructor
  · intro hres
    split at hres
    · cases hres
    · obtain ⟨c, hc, hq⟩ := List.exists_of_findSome?_eq_some hres
      exact hsound c hc p hq
  · rintro ⟨b, hb, h1, h2, rfl⟩
    have hpos := h.pos hb.1
    rw [if_neg (by omega)]
    obtain ⟨c, hc, bs, hok, hmem⟩ := h.exists_cluster hb.1
    have hc' : c.resolve m w = some (b + headerSize) :=
      hok.resolve_eq_some_iff.2 ⟨b, hmem, hb.2, h1, h2, rfl⟩
    cases hfind : cs.findSome? (Cluster.resolve m · w) with
    | none =>
      rw [List.findSome?_eq_none_iff.1 hfind c hc] at hc'
      cases hc'
    | some q =>
      obtain ⟨d, hd, hq⟩ := List.exists_of_findSome?_eq_some hfind
      obtain ⟨a, ha, h1', h2', rfl⟩ := hsound d hd q hq
      by_cases hne : a = b
      · rw [hne]
      · have := h.disjoint ha.1 hb.1 hne
        omega

theorem MarkInv.push (h : MarkInv m cs reg descs R []) (hp : PtrOk m cs p)
    (hR : p ≠ 0 → R (p - headerSize)) :
    MarkInv m cs reg descs R [p] where
  clusters := h.clusters
  objects := h.objects
  pending q hq := by
    rw [List.mem_singleton.1 hq]
    exact hp
  closed b hb hm q hq := (h.closed b hb hm q hq).imp_right fun h' => .inl (h'.resolve_right (by simp))
  pendingIn q hq := by
    rw [List.mem_singleton.1 hq]
    exact hR
  markedIn := h.markedIn
  fieldsIn := h.fieldsIn

/-- Pushing the block that a word leads to. -/
theorem MarkInv.pushBlock (h : MarkInv m cs reg descs R []) (hb : Live m cs b) (hR : R b) :
    MarkInv m cs reg descs R [b + headerSize] :=
  h.push (.inr ⟨b, hb, rfl⟩) fun _ => by rwa [Nat.add_sub_cancel]

/-- The blocks that the words of `ws` point into are in `R`. -/
def WordsIn (m : Mem) (cs : List Cluster) (R : Nat → Prop) (ws : List Nat) : Prop :=
  ∀ w ∈ ws, ∀ b, Live m cs b → b + headerSize ≤ w → w < b + blockSize m b → R b

theorem WordsIn.tail {ws : List Nat} (h : WordsIn m cs R (w :: ws)) : WordsIn m cs R ws :=
  fun v hv => h v (List.mem_cons_of_mem _ hv)

theorem WordsIn.retagged {ws : List Nat} (h : WordsIn m cs R ws) (hr : Retagged m m' cs)
    (hinv : ClustersTiled m cs) : WordsIn m' cs R ws := by
  intro w hw b hb hlo hhi
  have hb' := (hr.live_iff hinv).1 hb
  rw [hr.blockSize_eq hinv hb'.1] at hhi
  exact h w hw b hb' hlo hhi

theorem markWords_spec {fuel : Nat} {ws : List Nat} {n n' : Nat} (h : MarkInv m cs reg descs R [])
    (hws : WordsIn m cs R ws)
    (hres : markWords fuel reg descs cs ws m n = some (m', n')) :
    Marks m m' cs ∧ MarkInv m' cs reg descs R [] ∧ ∀ w ∈ ws, ∀ b, Live m cs b → b + headerSize ≤ w →
      w < b + blockSize m b → isMarked (tagOf m' b) := by
  induction ws generalizing m n with
  | nil =>
    cases hres
    exact ⟨Marks.refl _ cs, h, fun w hw => by cases hw⟩
  | cons w ws ih =>
    unfold markWords at hres
    split at hres
    · next hnone =>
      obtain ⟨h1, h2, h3⟩ := ih h hws.tail hres
      refine ⟨h1, h2, fun v hv b hb hlo hhi => ?_⟩
      rcases List.mem_cons.1 hv with rfl | hv
      · rw [(resolveHeapPtr_eq_some_iff h.clusters).2 ⟨b, hb, hlo, hhi, rfl⟩] at hnone
        cases hnone
      · exact h3 v hv b hb hlo hhi
    · next p hsome =>
      split at hres
      · cases hres
      · next m₁ hmark =>
        obtain ⟨a, ha, halo, hahi, rfl⟩ := (resolveHeapPtr_eq_some_iff h.clusters).1 hsome
        have hR : R a := hws w (List.mem_cons_self ..) a ha halo hahi
        obtain ⟨g1, g2, g3⟩ := markLoop_spec (h.pushBlock ha hR) hmark
        obtain ⟨h1, h2, h3⟩ := ih g2 (hws.tail.retagged g1.toRetagged h.clusters) hres
        refine ⟨g1.trans h.clusters h1, h2, fun v hv b hb hlo hhi => ?_⟩
        have hb' : Live m₁ cs b := (g1.toRetagged.live_iff h.clusters).2 hb
        rcases List.mem_cons.1 hv with rfl | hv
        · obtain rfl : a = b := by
            by_contra hne
            have := h.clusters.disjoint ha.1 hb.1 hne
            omega
          have hmarked := g3 (a + headerSize) (List.mem_singleton.2 rfl) (by unfold headerSize; omega)
          rw [Nat.add_sub_cancel] at hmarked
          exact h1.marked a hb'.1 hmarked
        · refine h3 v hv b hb' hlo ?_
          rwa [g1.toRetagged.blockSize_eq h.clusters hb.1]

theorem markSlots_spec {fuel : Nat} {ps : List Nat} {n n' : Nat} (h : MarkInv m cs reg descs R [])
    (hps : ∀ p ∈ ps, PtrOk m cs p) (hR : ∀ p ∈ ps, p ≠ 0 → R (p - headerSize))
    (hres : markSlots fuel reg descs ps m n = some (m', n')) :
    Marks m m' cs ∧ MarkInv m' cs reg descs R [] ∧
      ∀ p ∈ ps, p ≠ 0 → isMarked (tagOf m' (p - headerSize)) := by
  induction ps generalizing m n with
  | nil =>
    cases hres
    exact ⟨Marks.refl _ cs, h, fun w hw => by cases hw⟩
  | cons p ps ih =>
    have hps' := fun q hq => hps q (List.mem_cons_of_mem _ hq)
    have hR' := fun q hq => hR q (List.mem_cons_of_mem _ hq)
    unfold markSlots at hres
    split at hres
    · next hp0 =>
      obtain ⟨h1, h2, h3⟩ := ih h hps' hR' hres
      refine ⟨h1, h2, fun q hq hq0 => ?_⟩
      rcases List.mem_cons.1 hq with rfl | hq
      · exact absurd hp0 hq0
      · exact h3 q hq hq0
    · next hp0 =>
      split at hres
      · cases hres
      · next m₁ hmark =>
        have hp := hps p (List.mem_cons_self ..)
        obtain ⟨g1, g2, g3⟩ := markLoop_spec (h.push hp (hR p (List.mem_cons_self ..))) hmark
        obtain ⟨h1, h2, h3⟩ := ih g2
          (fun q hq => (PtrOk.retagged g1.toRetagged h.clusters).2 (hps' q hq)) hR' hres
        refine ⟨g1.trans h.clusters h1, h2, fun q hq hq0 => ?_⟩
        rcases List.mem_cons.1 hq with rfl | hq
        · obtain ⟨b, hb, rfl⟩ := hp.resolve_left hq0
          have hmarked := g3 (b + headerSize) (List.mem_singleton.2 rfl) hq0
          rw [Nat.add_sub_cancel] at hmarked ⊢
          exact h1.marked b ((g1.toRetagged.block_iff h.clusters).2 hb.1) hmarked
        · exact h3 q hq hq0

/-! ## Enough fuel -/

theorem markLoop_mono {fuel fuel' : Nat} (hle : fuel ≤ fuel')
    (hres : markLoop reg descs fuel m work = some m') : markLoop reg descs fuel' m work = some m' := by
  induction fuel generalizing fuel' m work with
  | zero =>
    obtain _ | ⟨p, work⟩ := work
    · cases hres
      cases fuel' <;> rfl
    · cases hres
  | succ fuel ih =>
    obtain _ | fuel' := fuel'
    · omega
    obtain _ | ⟨p, work⟩ := work
    · exact hres
    unfold markLoop at hres ⊢
    split
    · next hp0 =>
      rw [if_pos hp0] at hres
      exact ih (by omega) hres
    · next hp0 =>
      rw [if_neg hp0] at hres
      dsimp only at hres ⊢
      split
      · next hdone =>
        rw [if_pos hdone] at hres
        exact ih (by omega) hres
      · next hdone =>
        rw [if_neg hdone] at hres
        exact ih (by omega) hres

theorem exists_blocks : ∀ {cs : List Cluster}, (∀ c ∈ cs, ∃ bs, ClusterTiled m c bs) →
    ∃ L : Finset Nat, ∀ b, Block m cs b ↔ b ∈ L
  | [], _ => ⟨∅, fun b => iff_of_false (fun ⟨_, hc, _⟩ => by cases hc) (by simp)⟩
  | c :: cs, h => by
    obtain ⟨bs, hc⟩ := h c (List.mem_cons_self ..)
    obtain ⟨L, hL⟩ := exists_blocks fun d hd => h d (List.mem_cons_of_mem _ hd)
    refine ⟨bs.toFinset ∪ L, fun b => ?_⟩
    rw [Finset.mem_union, List.mem_toFinset, ← hL]
    constructor
    · rintro ⟨d, hd, bs', hbs', hb⟩
      rcases List.mem_cons.1 hd with rfl | hd
      · exact .inl (hbs'.unique hc.tiled ▸ hb)
      · exact .inr ⟨d, hd, bs', hbs', hb⟩
    · rintro (hb | ⟨d, hd, hb⟩)
      · exact ⟨c, List.mem_cons_self .., bs, hc.tiled, hb⟩
      · exact ⟨d, List.mem_cons_of_mem _ hd, hb⟩

/-- The loop ends: it marks another block or shortens the worklist. -/
theorem markLoop_terminates (h : MarkInv m cs reg descs R work) :
    ∃ fuel m', markLoop reg descs fuel m work = some m' := by
  obtain ⟨L, hL⟩ := exists_blocks h.clusters.each
  -- by the number of unmarked blocks, then by the worklist
  generalize hn : (L.filter fun b => ¬ isMarked (tagOf m b)).card = n
  induction n using Nat.strong_induction_on generalizing m work with
  | _ n ihn =>
    induction work with
    | nil => exact ⟨0, m, rfl⟩
    | cons p work ihw =>
      have hskip : (p = 0 ∨ isMarked (tagOf m (p - headerSize))) →
          ∃ fuel m', markLoop reg descs fuel m (p :: work) = some m' := by
        intro hp
        obtain ⟨fuel, m', hres⟩ := ihw (h.pop hp)
        refine ⟨fuel + 1, m', ?_⟩
        unfold markLoop
        rcases hp with hp | hp
        · rwa [if_pos hp]
        · by_cases hp0 : p = 0
          · rwa [if_pos hp0]
          · rw [if_neg hp0]
            dsimp only
            rwa [if_pos (.inl hp)]
      by_cases hp0 : p = 0
      · exact hskip (.inl hp0)
      obtain ⟨b, hb, rfl⟩ := (h.pending p (List.mem_cons_self ..)).resolve_left hp0
      by_cases hm : isMarked (tagOf m b)
      · exact hskip (.inr (by rwa [Nat.add_sub_cancel]))
      obtain ⟨hmarks, hmark, hinv⟩ := h.visit hb
      have hlt : (L.filter fun a => ¬ isMarked (tagOf (wr m b (setMark (tagOf m b))) a)).card < n := by
        rw [← hn]
        refine Finset.card_lt_card (Finset.ssubset_iff_of_subset ?_ |>.2 ⟨b, ?_, ?_⟩)
        · intro a ha
          rw [Finset.mem_filter] at ha ⊢
          exact ⟨ha.1, fun hma => ha.2 (hmarks.marked a ((hL a).2 ha.1) hma)⟩
        · exact Finset.mem_filter.2 ⟨(hL b).1 hb.1, hm⟩
        · simp [hmark]
      obtain ⟨fuel, m', hres⟩ := ihn _ hlt hinv
        (fun a => (hmarks.toRetagged.block_iff h.clusters).trans (hL a)) rfl
      refine ⟨fuel + 1, m', ?_⟩
      unfold markLoop
      rw [if_neg hp0]
      simp only [Nat.add_sub_cancel]
      rw [if_neg (by rw [not_or]; exact ⟨hm, hb.2⟩)]
      exact hres

theorem markWords_mono {fuel fuel' : Nat} (hle : fuel ≤ fuel') {ws : List Nat} {n : Nat}
    {r : Mem × Nat} (hres : markWords fuel reg descs cs ws m n = some r) :
    markWords fuel' reg descs cs ws m n = some r := by
  induction ws generalizing m n with
  | nil => exact hres
  | cons w ws ih =>
    unfold markWords at hres ⊢
    split at hres
    · exact ih hres
    · next p _ =>
      split at hres
      · cases hres
      · next m₁ hmark =>
        have hmark' : markObject fuel' m reg descs p = some m₁ := markLoop_mono hle hmark
        rw [hmark']
        exact ih hres

theorem markSlots_mono {fuel fuel' : Nat} (hle : fuel ≤ fuel') {ps : List Nat} {n : Nat}
    {r : Mem × Nat} (hres : markSlots fuel reg descs ps m n = some r) :
    markSlots fuel' reg descs ps m n = some r := by
  induction ps generalizing m n with
  | nil => exact hres
  | cons p ps ih =>
    unfold markSlots at hres ⊢
    split
    · next hp0 =>
      rw [if_pos hp0] at hres
      exact ih hres
    · next hp0 =>
      rw [if_neg hp0] at hres
      split at hres
      · cases hres
      · next m₁ hmark =>
        have hmark' : markObject fuel' m reg descs p = some m₁ := markLoop_mono hle hmark
        rw [hmark']
        exact ih hres

theorem markWords_terminates (h : MarkInv m cs reg descs R []) {ws : List Nat}
    (hws : WordsIn m cs R ws) (n : Nat) : ∃ fuel r, markWords fuel reg descs cs ws m n = some r := by
  induction ws generalizing m n with
  | nil => exact ⟨0, _, rfl⟩
  | cons w ws ih =>
    cases hw : resolveHeapPtr m cs w with
    | none =>
      obtain ⟨fuel, r, hres⟩ := ih h hws.tail n
      refine ⟨fuel, r, ?_⟩
      unfold markWords
      rwa [hw]
    | some p =>
      obtain ⟨b, hb, hlo, hhi, rfl⟩ := (resolveHeapPtr_eq_some_iff h.clusters).1 hw
      have hpush := h.pushBlock hb (hws w (List.mem_cons_self ..) b hb hlo hhi)
      obtain ⟨fuel, m₁, hmark⟩ := markLoop_terminates hpush
      obtain ⟨g1, g2, -⟩ := markLoop_spec hpush hmark
      obtain ⟨fuel', r, hres⟩ := ih g2 (hws.tail.retagged g1.toRetagged h.clusters) (n + 1)
      refine ⟨max fuel fuel', r, ?_⟩
      have hmark' : markObject (max fuel fuel') m reg descs (b + headerSize) = some m₁ :=
        markLoop_mono (le_max_left ..) hmark
      unfold markWords
      rw [hw]
      dsimp only
      rw [hmark']
      exact markWords_mono (le_max_right ..) hres

theorem markSlots_terminates (h : MarkInv m cs reg descs R []) {ps : List Nat}
    (hps : ∀ p ∈ ps, PtrOk m cs p) (hR : ∀ p ∈ ps, p ≠ 0 → R (p - headerSize)) (n : Nat) :
    ∃ fuel r, markSlots fuel reg descs ps m n = some r := by
  induction ps generalizing m n with
  | nil => exact ⟨0, _, rfl⟩
  | cons p ps ih =>
    have hps' := fun q hq => hps q (List.mem_cons_of_mem _ hq)
    have hR' := fun q hq => hR q (List.mem_cons_of_mem _ hq)
    by_cases hp0 : p = 0
    · obtain ⟨fuel, r, hres⟩ := ih h hps' hR' n
      refine ⟨fuel, r, ?_⟩
      unfold markSlots
      rwa [if_pos hp0]
    · have hp := h.push (hps p (List.mem_cons_self ..)) (hR p (List.mem_cons_self ..))
      obtain ⟨fuel, m₁, hmark⟩ := markLoop_terminates hp
      obtain ⟨g1, g2, -⟩ := markLoop_spec hp hmark
      obtain ⟨fuel', r, hres⟩ := ih g2
        (fun q hq => (PtrOk.retagged g1.toRetagged h.clusters).2 (hps' q hq)) hR' (n + 1)
      refine ⟨max fuel fuel', r, ?_⟩
      have hmark' : markObject (max fuel fuel') m reg descs p = some m₁ :=
        markLoop_mono (le_max_left ..) hmark
      unfold markSlots
      rw [if_neg hp0, hmark']
      exact markSlots_mono (le_max_right ..) hres

end mark

end NewM2.Gc
