import Mathlib
import NewM2.Util.TextRope.Queries

/-!
# Editing a rope (`library/utilmod/TextRope.mod`)

The procedures consume the ropes they are given: their nodes are used in the result or disposed of, and
all other nodes stay as they are. -/

namespace NewM2.TextRope
open Handles

section memory
variable (M : Memory)

def buildSlice (s : Chars) (start count : Nat) : Proc Rope :=
  if count ≤ leafMax then newLeaf M s start count
  else do
    let l ← buildSlice s start (count / 2)
    let r ← buildSlice s (wrap (start + count / 2)) (count - count / 2)
    makeBranch M l r
termination_by count
decreasing_by
  all_goals
    rename_i hlong
    rw [leafMax] at hlong
    omega

def fromString (s : Chars) : Proc Rope :=
  if s.length = 0 then pure none else buildSlice M s 0 s.length

/-- The part of `Concat` that makes one leaf of two. -/
def mergeLeaves (a b : Handle) (x y : Node) : Proc Rope := do
  let n ← new M
  let node ← deref n
  let (_, data) ← onChars (x.data.copyLoop 0 0 x.len (fun _ => true) 0 node.data)
  let (_, data) ← onChars (y.data.copyLoop 0 x.len y.len (fun _ => true) 0 data)
  assign n { isLeaf := true, len := wrap (x.len + y.len), data := data, left := none, right := none }
  dispose (some a)
  dispose (some b)
  pure n

def concat : Rope → Rope → Proc Rope
  | none, b => pure b
  | a, none => pure a
  | some a, some b => do
    let x ← deref (some a)
    let y ← deref (some b)
    if x.isLeaf ∧ y.isLeaf ∧ wrap (x.len + y.len) ≤ leafMax then mergeLeaves M a b x y
    else makeBranch M (some a) (some b)

/-- `SplitNode`: `l` and `rr`. -/
def splitIn : Nat → Rope → Nat → Proc (Rope × Rope)
  | 0, _, _ => stop .rounds
  | _ + 1, none, _ => pure (none, none)
  | m + 1, some a, i => do
    let r ← deref (some a)
    if i = 0 then pure (none, some a)
    else if r.len ≤ i then pure (some a, none)
    else if r.isLeaf then do
      let l ← newLeaf M r.data 0 i
      let rr ← newLeaf M r.data i (r.len - i)
      dispose (some a)
      pure (l, rr)
    else do
      let left ← deref r.left
      if i = left.len then do
        dispose (some a)
        pure (r.left, r.right)
      else if i < left.len then do
        let (ll, lr) ← splitIn m r.left i
        let rr ← concat M lr r.right
        dispose (some a)
        pure (ll, rr)
      else do
        let (rl, rr) ← splitIn m r.right (i - left.len)
        let l ← concat M r.left rl
        dispose (some a)
        pure (l, rr)

def splitNode (r : Rope) (i : Nat) : Proc (Rope × Rope) := do
  let m ← rounds
  splitIn M m r i

def insert (r : Rope) (i : Nat) (s : Chars) : Proc Rope := do
  let mid ← fromString M s
  if mid = none then pure r
  else do
    let len ← length r
    if len ≤ i then concat M r mid
    else do
      let (l, rr) ← splitNode M r i
      let l ← concat M l mid
      concat M l rr

def append (r : Rope) (s : Chars) : Proc Rope := do
  let mid ← fromString M s
  concat M r mid

/-- `Free`: what is in `r` afterwards. -/
def freeIn : Nat → Rope → Proc Rope
  | 0, _ => stop .rounds
  | _ + 1, none => pure none
  | m + 1, some a => do
    let n ← deref (some a)
    if n.isLeaf then do
      dispose (some a)
      pure none
    else do
      let l ← freeIn m n.left
      assign (some a) { n with left := l }
      let r ← freeIn m n.right
      assign (some a) { n with left := l, right := r }
      dispose (some a)
      pure none

def free (r : Rope) : Proc Rope := do
  let m ← rounds
  freeIn m r

def deleteRange (r : Rope) (i n : Nat) : Proc Rope := do
  let len ← length r
  if len ≤ i ∨ n = 0 then pure r
  else do
    let (l, tmp) ← splitNode M r i
    let (mid, rr) ← splitNode M tmp (if len < wrap (i + n) then len - i else n)
    let _ ← free mid
    concat M l rr

end memory

/-! ## What they make -/

/-- Two ropes with the texts, on top of what is owned. -/
def MakesBoth (M : Memory) (own : List (Handle × Node)) (u v : List Code)
    (q : (Rope × Rope) × Heap Node) : Prop :=
  ∃ l r, q.1 = (addrOf l, addrOf r) ∧ textOf l = u ∧ textOf r = v ∧
    Keeps M q.2 (nodesOf l ++ (nodesOf r ++ own))

section editing
variable {M : Memory} {h : Heap Node} {own : List (Handle × Node)} {s : Chars} {start n i m : Nat}
  {a : Handle} {t t' : Option Tree}

theorem makeBranch_runs (hk : Keeps M h (nodesOf t ++ (nodesOf t' ++ own))) :
    Does (makeBranch M (addrOf t) (addrOf t') h) (Makes M own (textOf t ++ textOf t')) := by
  cases t with
  | none => exact Runs.ok ⟨t', rfl, rfl, hk⟩
  | some l =>
    cases t' with
    | none => exact Runs.ok ⟨some l, rfl, (List.append_nil _).symm, hk⟩
    | some r =>
      refine (makeBranch_tree hk).mono ?_
      rintro q ⟨a, data, hq, hk'⟩
      exact ⟨some (.branch a data l r), hq, Tree.text_branch, hk'⟩

theorem buildSlice_runs (hk : Keeps M h own) (hpos : 0 < n) (hs : start + n ≤ s.size) :
    Does (buildSlice M s start n h) (Makes M own ((s.cells.drop start).take n)) := by
  have hsize := s.size_lt
  induction n using Nat.strong_induction_on generalizing h own start with
  | _ n ih =>
    rw [buildSlice]
    split_ifs with hle
    · exact newLeaf_runs hk hpos hle hs
    · rw [leafMax] at hle
      rw [wrap_of_lt (by omega)]
      refine (ih (n / 2) (by omega) hk (by omega) (by omega)).bindS ?_
      rintro l h₁ ⟨t, rfl, ht, hk₁⟩
      refine (ih (n - n / 2) (by omega) hk₁ (by omega) (by omega)).bindS ?_
      rintro r h₂ ⟨t', rfl, ht', hk₂⟩
      have htext : textOf t ++ textOf t' = (s.cells.drop start).take n := by
        rw [ht, ht', ← List.drop_drop, ← List.take_add, Nat.add_sub_cancel' (Nat.div_le_self n 2)]
      rw [← htext]
      exact makeBranch_runs (hk₂.count fun q => by simp only [List.count_append]; omega)

theorem fromString_runs (hk : Keeps M h own) (s : Chars) : Does (fromString M s h) (Makes M own s.text) := by
  rw [fromString, Chars.length_eq]
  by_cases hlen : s.text.length = 0
  · rw [if_pos hlen, List.length_eq_zero_iff.1 hlen]
    exact Runs.ok ⟨none, rfl, rfl, hk⟩
  · rw [if_neg hlen]
    have hle := s.length_le
    rw [Chars.length_eq] at hle
    refine (buildSlice_runs (n := s.text.length) hk (Nat.pos_of_ne_zero hlen) (by omega)).mono ?_
    rintro q ⟨t, hq, ht, hk'⟩
    rw [List.drop_zero, List.prefix_iff_eq_take.1 s.text_prefix_cells |>.symm] at ht
    exact ⟨t, hq, ht, hk'⟩

theorem mergeLeaves_runs {b : Handle} {f g : Leaf}
    (hk : Keeps M h ((a, f.node) :: (b, g.node) :: own)) (hlen : f.len + g.len ≤ leafMax) :
    Does (mergeLeaves M a b f.node g.node h) (Makes M own (f.text ++ g.text)) := by
  have hf : f.len ≤ f.data.size := f.size_data ▸ f.len_le
  have hg : g.len ≤ g.data.size := g.size_data ▸ g.len_le
  rw [mergeLeaves]
  refine hk.new_runs.bindS ?_
  rintro _ h₁ ⟨c, node, rfl, hsize, hk₁⟩
  refine (hk₁.deref_reads (List.mem_cons_self ..)).bind ?_
  rintro node rfl
  have hcopy : Runs (fun _ => False) (Chars.copyLoop f.data 0 0 f.len (fun _ => true) 0 node.data) fun x =>
      x.1 = f.len ∧ Chars.Copied f.data.cells 0 0 f.len node.data x.2 :=
    Chars.copyLoop_runs le_rfl (fun _ _ => rfl) (fun h => absurd h (lt_irrefl _)) (.inr (by omega)) (.inr (by omega))
  refine (onChars_reads hcopy).bind ?_
  rintro ⟨k, data⟩ ⟨-, hcopied⟩
  have hsize' : data.size = leafMax := hcopied.size.trans hsize
  have hcopy' : Runs (fun _ => False) (Chars.copyLoop g.data 0 f.len g.len (fun _ => true) 0 data) fun x =>
      x.1 = g.len ∧ Chars.Copied g.data.cells 0 f.len g.len data x.2 :=
    Chars.copyLoop_runs le_rfl (fun _ _ => rfl) (fun h => absurd h (lt_irrefl _)) (.inr (by omega)) (.inr (by omega))
  refine (onChars_reads hcopy').bind ?_
  rintro ⟨k', data'⟩ ⟨-, hcopied'⟩
  have htake := hcopied.take (by omega)
  have htake' := hcopied'.take (by omega)
  rw [List.drop_zero, Nat.zero_add, List.take_zero, List.nil_append] at htake
  rw [htake, List.drop_zero] at htake'
  refine (Keeps.assign_runs hk₁).bindS ?_
  intro _ h₂ hk₂
  refine (Keeps.dispose_runs (hk₂.perm (.swap ..))).bindS ?_
  intro _ h₃ hk₃
  refine (Keeps.dispose_runs (hk₃.perm (.swap ..))).bindS ?_
  intro _ h₄ hk₄
  have hwrap : wrap (f.len + g.len) = f.len + g.len := by
    rw [leafMax] at hlen
    exact wrap_of_lt (by omega)
  have hpos := f.len_pos
  refine Runs.ok ⟨some (.leaf c ⟨data', f.len + g.len, hcopied'.size.trans hsize', by omega, hlen⟩), rfl,
    (Tree.text_leaf ..).trans htake', ?_⟩
  have hk₅ : Keeps M h₄ ((c, ⟨true, wrap (f.len + g.len), data', none, none⟩) :: own) := hk₄
  rwa [hwrap] at hk₅

/-- Two small leaves become one. -/
theorem concat_runs (hk : Keeps M h (nodesOf t ++ (nodesOf t' ++ own))) :
    Does (concat M (addrOf t) (addrOf t') h) (Makes M own (textOf t ++ textOf t')) := by
  cases t with
  | none => exact Runs.ok ⟨t', rfl, rfl, hk⟩
  | some l =>
    cases t' with
    | none => exact Runs.ok ⟨some l, rfl, (List.append_nil _).symm, hk⟩
    | some r =>
      refine (hk.deref_reads (List.mem_append_left _ l.root_mem)).bind ?_
      rintro x rfl
      refine (hk.deref_reads (List.mem_append_right _ (List.mem_append_left _ r.root_mem))).bind ?_
      rintro y rfl
      by_cases hsmall : l.node.isLeaf ∧ r.node.isLeaf ∧ wrap (l.node.len + r.node.len) ≤ leafMax
      · rw [if_pos hsmall]
        obtain ⟨hl, hr, hlen⟩ := hsmall
        cases l with
        | branch => exact absurd hl Bool.false_ne_true
        | leaf a f =>
          cases r with
          | branch => exact absurd hr Bool.false_ne_true
          | leaf b g =>
            have hsum : f.len + g.len ≤ leafMax := by
              have hf := f.len_le
              have hg := g.len_le
              rw [leafMax] at hf hg
              rwa [Tree.len_node, Tree.len_node, Tree.text_leaf, Tree.text_leaf, f.length_text,
                g.length_text, wrap_of_lt (by omega)] at hlen
            have hk' : Keeps M h ((a, f.node) :: (b, g.node) :: own) := hk
            refine (mergeLeaves_runs hk' hsum).mono ?_
            rintro q ⟨t, hq, ht, hk''⟩
            exact ⟨t, hq, by simp [ht], hk''⟩
      · rw [if_neg hsmall]
        exact makeBranch_runs hk

theorem splitIn_runs {t : Tree} (hk : Keeps M h (t.nodes ++ own)) (hm : t.depth ≤ m) :
    Does (splitIn M m (some t.addr) i h) (MakesBoth M own (t.text.take i) (t.text.drop i)) := by
  induction t generalizing m h own i with
  | leaf a f =>
    obtain ⟨m, rfl⟩ := Nat.exists_eq_succ_of_ne_zero (Nat.ne_of_gt hm)
    have hsize : f.len ≤ f.data.size := f.size_data ▸ f.len_le
    have hle := f.len_le
    refine (hk.deref_reads (List.mem_append_left _ (Tree.root_mem _))).bind ?_
    rintro r rfl
    rw [Tree.len_node, Tree.isLeaf_leaf, Tree.text_leaf, f.length_text]
    by_cases hzero : i = 0
    · rw [if_pos hzero, hzero]
      exact Runs.ok ⟨none, some (.leaf a f), rfl, rfl, Tree.text_leaf, hk⟩
    rw [if_neg hzero]
    by_cases hlong : f.len ≤ i
    · rw [if_pos hlong]
      rw [← f.length_text] at hlong
      rw [List.take_of_length_le hlong, List.drop_of_length_le hlong]
      exact Runs.ok ⟨some (.leaf a f), none, rfl, Tree.text_leaf, rfl, hk⟩
    rw [if_neg hlong, if_pos rfl]
    have hhead : 0 + i ≤ f.data.size := by omega
    have htail : i + (f.len - i) ≤ f.data.size := by omega
    refine (newLeaf_runs hk (by omega) (by omega) hhead).bindS ?_
    rintro _ h₁ ⟨l, rfl, hl, hk₁⟩
    refine (newLeaf_runs hk₁ (by omega) (by omega) htail).bindS ?_
    rintro _ h₂ ⟨r, rfl, hr, hk₂⟩
    have hk₃ : Keeps M h₂ ((a, f.node) :: (nodesOf l ++ (nodesOf r ++ own))) := hk₂.count fun q => by
      simp only [Tree.nodes, List.count_append, List.count_cons, List.count_nil]
      omega
    refine hk₃.dispose_runs.bindS ?_
    intro _ h₄ hk₄
    refine Runs.ok ⟨l, r, rfl, hl.trans ?_, hr.trans ?_, hk₄⟩
    · rw [Leaf.text, List.take_take, Nat.min_eq_left (by omega)]
      rfl
    · rw [Leaf.text, List.drop_take]
  | branch a data l r ihl ihr =>
    obtain ⟨m, rfl⟩ := Nat.exists_eq_succ_of_ne_zero (Nat.ne_of_gt ((Tree.depth_pos _).trans_le hm))
    rw [Tree.depth] at hm
    have hlmem : (l.addr, l.node) ∈ (Tree.branch a data l r).nodes ++ own := by
      simp [Tree.nodes, l.root_mem]
    refine (hk.deref_reads (List.mem_append_left _ (Tree.root_mem _))).bind ?_
    rintro node rfl
    rw [Tree.len_node, Tree.isLeaf_branch]
    by_cases hzero : i = 0
    · rw [if_pos hzero, hzero]
      exact Runs.ok ⟨none, some (.branch a data l r), rfl, rfl, rfl, hk⟩
    rw [if_neg hzero]
    by_cases hlong : (Tree.branch a data l r).text.length ≤ i
    · rw [if_pos hlong, List.take_of_length_le hlong, List.drop_of_length_le hlong]
      exact Runs.ok ⟨some (.branch a data l r), none, rfl, rfl, rfl, hk⟩
    rw [if_neg hlong, if_neg Bool.false_ne_true]
    refine (hk.deref_reads hlmem).bind ?_
    rintro left rfl
    rw [Tree.len_node, Tree.text_branch]
    rcases Nat.lt_trichotomy i l.text.length with hlt | heq | hgt
    · rw [if_neg hlt.ne, if_pos hlt, List.take_append_of_le_length hlt.le,
        List.drop_append_of_le_length hlt.le]
      have hk₀ : Keeps M h (l.nodes ++ ((a, (Tree.branch a data l r).node) :: (r.nodes ++ own))) :=
        hk.count fun q => by
          simp only [Tree.nodes, List.count_append, List.count_cons]
          omega
      refine (ihl hk₀ (by omega)).bindS ?_
      rintro _ h₁ ⟨ll, lr, rfl, hll, hlr, hk₁⟩
      have hk₂ : Keeps M h₁ (nodesOf lr ++ (nodesOf (some r) ++
          ((a, (Tree.branch a data l r).node) :: (nodesOf ll ++ own)))) := hk₁.count fun q => by
        simp only [nodesOf_some, List.count_append, List.count_cons]
        omega
      refine (concat_runs hk₂).bindS ?_
      rintro _ h₃ ⟨rr, rfl, hrr, hk₃⟩
      have hk₄ : Keeps M h₃ ((a, (Tree.branch a data l r).node) ::
          (nodesOf ll ++ (nodesOf rr ++ own))) := hk₃.count fun q => by
        simp only [List.count_append, List.count_cons]
        omega
      refine hk₄.dispose_runs.bindS ?_
      intro _ h₅ hk₅
      exact Runs.ok ⟨ll, rr, rfl, hll, by rw [hrr, hlr]; rfl, hk₅⟩
    · rw [if_pos heq, heq, List.take_left, List.drop_left]
      have hk₁ : Keeps M h ((a, (Tree.branch a data l r).node) ::
          (nodesOf (some l) ++ (nodesOf (some r) ++ own))) := by
        simpa only [Tree.nodes, nodesOf_some, List.cons_append, List.append_assoc] using hk
      refine hk₁.dispose_runs.bindS ?_
      intro _ h₂ hk₂
      exact Runs.ok ⟨some l, some r, rfl, rfl, rfl, hk₂⟩
    · rw [if_neg hgt.ne', if_neg (Nat.not_lt.2 hgt.le), List.take_append, List.drop_append,
        List.take_of_length_le hgt.le, List.drop_of_length_le hgt.le, List.nil_append]
      have hk₀ : Keeps M h (r.nodes ++ ((a, (Tree.branch a data l r).node) :: (l.nodes ++ own))) :=
        hk.count fun q => by
          simp only [Tree.nodes, List.count_append, List.count_cons]
          omega
      refine (ihr hk₀ (by omega)).bindS ?_
      rintro _ h₁ ⟨rl, rr, rfl, hrl, hrr, hk₁⟩
      have hk₂ : Keeps M h₁ (nodesOf (some l) ++ (nodesOf rl ++
          ((a, (Tree.branch a data l r).node) :: (nodesOf rr ++ own)))) := hk₁.count fun q => by
        simp only [nodesOf_some, List.count_append, List.count_cons]
        omega
      refine (concat_runs hk₂).bindS ?_
      rintro _ h₃ ⟨l', rfl, hl', hk₃⟩
      have hk₄ : Keeps M h₃ ((a, (Tree.branch a data l r).node) ::
          (nodesOf l' ++ (nodesOf rr ++ own))) := hk₃.count fun q => by
        simp only [List.count_append, List.count_cons]
        omega
      refine hk₄.dispose_runs.bindS ?_
      intro _ h₅ hk₅
      exact Runs.ok ⟨l', rr, rfl, by rw [hl', hrl]; rfl, hrr, hk₅⟩

theorem splitNode_runs (hk : Keeps M h (nodesOf t ++ own)) (i : Nat) :
    Does (splitNode M (addrOf t) i h) (MakesBoth M own ((textOf t).take i) ((textOf t).drop i)) := by
  refine rounds_reads.bind ?_
  rintro m rfl
  cases t with
  | none => exact Runs.ok ⟨none, none, rfl, by simp, by simp, hk⟩
  | some t => exact splitIn_runs hk (hk.depth_le.trans (Nat.le_succ _))

theorem insert_runs (hk : Keeps M h (nodesOf t ++ own)) (i : Nat) (s : Chars) :
    Does (insert M (addrOf t) i s h)
      (Makes M own ((textOf t).take i ++ s.text ++ (textOf t).drop i)) := by
  refine (fromString_runs hk s).bindS ?_
  rintro mid h₁ ⟨x, rfl, hx, hk₁⟩
  have hk₂ : Keeps M h₁ (nodesOf t ++ (nodesOf x ++ own)) := hk₁.count fun q => by
    simp only [List.count_append]
    omega
  rw [← hx]
  cases x with
  | none =>
    rw [textOf_none, List.append_nil, List.take_append_drop]
    exact Runs.ok ⟨t, rfl, rfl, hk₁⟩
  | some x =>
    have hne : addrOf (some x) ≠ none := Option.some_ne_none _
    rw [if_neg hne]
    refine hk₂.length_reads.bind ?_
    rintro n rfl
    by_cases hlong : (textOf t).length ≤ i
    · rw [if_pos hlong, List.take_of_length_le hlong, List.drop_of_length_le hlong, List.append_nil]
      exact concat_runs hk₂
    · rw [if_neg hlong]
      refine (splitNode_runs hk₂ i).bindS ?_
      rintro _ h₃ ⟨l, rr, rfl, hl, hrr, hk₃⟩
      rw [← hl, ← hrr]
      have hk₄ : Keeps M h₃ (nodesOf l ++ (nodesOf (some x) ++ (nodesOf rr ++ own))) :=
        hk₃.count fun q => by
          simp only [List.count_append]
          omega
      refine (concat_runs hk₄).bindS ?_
      rintro _ h₅ ⟨l', rfl, hl', hk₅⟩
      rw [← hl']
      exact concat_runs hk₅

theorem append_runs (hk : Keeps M h (nodesOf t ++ own)) (s : Chars) :
    Does (append M (addrOf t) s h) (Makes M own (textOf t ++ s.text)) := by
  refine (fromString_runs hk s).bindS ?_
  rintro mid h₁ ⟨x, rfl, hx, hk₁⟩
  rw [← hx]
  exact concat_runs (hk₁.count fun q => by simp only [List.count_append]; omega)

theorem freeIn_runs {t : Tree} (hk : Keeps M h (t.nodes ++ own)) (hm : t.depth ≤ m) :
    Does (freeIn m (some t.addr) h) fun q => q.1 = none ∧ Keeps M q.2 own := by
  induction t generalizing m h own with
  | leaf a f =>
    obtain ⟨m, rfl⟩ := Nat.exists_eq_succ_of_ne_zero (Nat.ne_of_gt hm)
    refine (hk.deref_reads (List.mem_append_left _ (Tree.root_mem _))).bind ?_
    rintro n rfl
    rw [Tree.isLeaf_leaf, if_pos rfl]
    refine (Keeps.dispose_runs hk).bindS ?_
    intro _ h₁ hk₁
    exact Runs.ok ⟨rfl, hk₁⟩
  | branch a data l r ihl ihr =>
    obtain ⟨m, rfl⟩ := Nat.exists_eq_succ_of_ne_zero (Nat.ne_of_gt ((Tree.depth_pos _).trans_le hm))
    rw [Tree.depth] at hm
    refine (hk.deref_reads (List.mem_append_left _ (Tree.root_mem _))).bind ?_
    rintro n rfl
    rw [Tree.isLeaf_branch, if_neg Bool.false_ne_true]
    have hk₁ : Keeps M h (l.nodes ++ ((a, (Tree.branch a data l r).node) :: (r.nodes ++ own))) :=
      hk.count fun q => by
        simp only [Tree.nodes, List.count_append, List.count_cons]
        omega
    refine (ihl hk₁ (by omega)).bindS ?_
    rintro left h₂ ⟨rfl, hk₂⟩
    refine (Keeps.assign_runs hk₂).bindS ?_
    intro _ h₃ hk₃
    refine (ihr (hk₃.perm List.perm_middle.symm) (by omega)).bindS ?_
    rintro right h₄ ⟨rfl, hk₄⟩
    refine (Keeps.assign_runs hk₄).bindS ?_
    intro _ h₅ hk₅
    refine (Keeps.dispose_runs hk₅).bindS ?_
    intro _ h₆ hk₆
    exact Runs.ok ⟨rfl, hk₆⟩

theorem free_runs (hk : Keeps M h (nodesOf t ++ own)) :
    Does (free (addrOf t) h) fun q => q.1 = none ∧ Keeps M q.2 own := by
  refine rounds_reads.bind ?_
  rintro m rfl
  cases t with
  | none => exact Runs.ok ⟨rfl, hk⟩
  | some t => exact freeIn_runs hk (hk.depth_le.trans (Nat.le_succ _))

/-- `i + n` may wrap around: then the rest is shorter than `n` all the same. -/
theorem deleteRange_runs (hk : Keeps M h (nodesOf t ++ own)) (i n : Nat) :
    Does (deleteRange M (addrOf t) i n h)
      (Makes M own ((textOf t).take i ++ (textOf t).drop (i + n))) := by
  refine hk.length_reads.bind ?_
  rintro len rfl
  by_cases hnone : (textOf t).length ≤ i ∨ n = 0
  · rw [if_pos hnone]
    refine Runs.ok ⟨t, rfl, ?_, hk⟩
    rcases hnone with hlong | rfl
    · rw [List.take_of_length_le hlong, List.drop_of_length_le (by omega), List.append_nil]
    · rw [Nat.add_zero, List.take_append_drop]
  · rw [if_neg hnone]
    refine (splitNode_runs hk i).bindS ?_
    rintro _ h₁ ⟨l, tmp, rfl, hl, htmp, hk₁⟩
    have hk₂ : Keeps M h₁ (nodesOf tmp ++ (nodesOf l ++ own)) := hk₁.count fun q => by
      simp only [List.count_append]
      omega
    refine (splitNode_runs hk₂ _).bindS ?_
    rintro _ h₃ ⟨mid, rr, rfl, hmid, hrr, hk₃⟩
    refine (free_runs hk₃).bindS ?_
    rintro _ h₄ ⟨-, hk₄⟩
    have hk₅ : Keeps M h₄ (nodesOf l ++ (nodesOf rr ++ own)) := hk₄.count fun q => by
      simp only [List.count_append]
      omega
    have hdrop : textOf rr = (textOf t).drop (i + n) := by
      rw [hrr, htmp, List.drop_drop]
      split_ifs with hlong
      · have hwrap : wrap (i + n) ≤ i + n := Nat.mod_le ..
        rw [List.drop_of_length_le (by omega), List.drop_of_length_le (by omega)]
      · rfl
    rw [← hl, ← hdrop]
    exact concat_runs hk₅

end editing
end NewM2.TextRope
