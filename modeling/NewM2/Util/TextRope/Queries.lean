import Mathlib
import NewM2.Util.TextRope.Nodes

/-!
# Queries of a rope (`library/utilmod/TextRope.mod`)

They read the nodes and leave them as they are. -/

namespace NewM2.TextRope
open Handles

def length : Rope → Proc Nat
  | none => pure 0
  | some a => do
    let n ← deref (some a)
    pure n.len

/-- The loop of `CharAt`. -/
def charAtLoop : Nat → Rope → Nat → Proc Code
  | 0, _, _ => stop .rounds
  | m + 1, r, i => do
    let n ← deref r
    if n.isLeaf then onChars (n.data.get i)
    else do
      let l ← deref n.left
      if i < l.len then charAtLoop m n.left i else charAtLoop m n.right (i - l.len)

def charAt : Rope → Nat → Proc Code
  | none, _ => pure nul
  | some a, i => do
    let n ← deref (some a)
    if n.len ≤ i then pure nul
    else do
      let m ← rounds
      charAtLoop m (some a) i

/-- The loop of `Sub`: the last `k`, and `out`. -/
def subLoop (r : Rope) (i n len high k : Nat) (out : Chars) : Proc (Nat × Chars) :=
  if k < n ∧ k < high ∧ wrap (i + k) < len then do
    let c ← charAt r (wrap (i + k))
    let out ← onChars (out.put k c)
    subLoop r i n len high (k + 1) out
  else pure (k, out)
termination_by high - k

def sub (r : Rope) (i n : Nat) (out : Chars) : Proc Chars := do
  let len ← length r
  let (k, out) ← subLoop r i n len out.high 0 out
  onChars (out.put k nul)

def toString (r : Rope) (out : Chars) : Proc Chars := do
  let n ← length r
  sub r 0 n out

/-- `Depth`, `Leaves` and `Nodes` are 0 of NIL, 1 of a leaf and `f` of what they are of the parts of a
branch. -/
def fold (f : Nat → Nat → Nat) : Nat → Rope → Proc Nat
  | 0, _ => stop .rounds
  | _ + 1, none => pure 0
  | m + 1, some a => do
    let n ← deref (some a)
    if n.isLeaf then pure 1
    else do
      let x ← fold f m n.left
      let y ← fold f m n.right
      pure (f x y)

def depth (r : Rope) : Proc Nat := do
  let m ← rounds
  fold (fun dl dr => if dr < dl then wrap (dl + 1) else wrap (dr + 1)) m r

def leaves (r : Rope) : Proc Nat := do
  let m ← rounds
  fold (fun x y => wrap (x + y)) m r

def nodes (r : Rope) : Proc Nat := do
  let m ← rounds
  fold (fun x y => wrap (wrap (1 + x) + y)) m r

/-! ## What they return -/

/-- What `Sub` leaves in its array: the characters and a NUL behind them. -/
def written (piece : List Code) (out : Chars) : List Code :=
  piece ++ nul :: out.cells.drop (piece.length + 1)

section reads
variable {M : Memory} {h : Heap Node} {own : List (Handle × Node)} {allowed : Stop → Prop}

theorem rounds_reads : Reads allowed rounds h (· = h.length + 1) := Runs.ok ⟨rfl, rfl⟩

namespace Keeps
variable {t : Option Tree}

theorem length_text_lt (hk : Keeps M h (nodesOf t ++ own)) : (textOf t).length < 2 ^ 64 := by
  cases t with
  | none => exact Nat.two_pow_pos 64
  | some t =>
    have hroom := hk.room
    have hle := M.room_le
    have htext := t.length_text_le
    rw [List.length_append, nodesOf_some] at hroom
    rw [leafMax] at htext
    rw [textOf_some]
    omega

theorem depth_le {t : Tree} (hk : Keeps M h (t.nodes ++ own)) : t.depth ≤ h.length := by
  have hle := hk.length_le
  have hdepth := t.depth_le
  rw [List.length_append] at hle
  omega

theorem length_reads (hk : Keeps M h (nodesOf t ++ own)) :
    Reads allowed (length (addrOf t)) h (· = (textOf t).length) := by
  cases t with
  | none => exact Runs.ok ⟨rfl, rfl⟩
  | some t =>
    refine (hk.deref_reads (List.mem_append_left _ t.root_mem)).bind ?_
    rintro n rfl
    exact Runs.ok ⟨t.len_node, rfl⟩

theorem charAtLoop_reads {t : Tree} {m i : Nat} (hk : Keeps M h own) (hsub : t.nodes ⊆ own)
    (hm : t.depth ≤ m) (hi : i < t.text.length) :
    Reads allowed (charAtLoop m (some t.addr) i) h fun c => t.text[i]? = some c := by
  induction t generalizing m i with
  | leaf a f =>
    obtain ⟨m, rfl⟩ := Nat.exists_eq_succ_of_ne_zero (Nat.ne_of_gt hm)
    refine (hk.deref_reads (hsub (Tree.root_mem _))).bind ?_
    rintro n rfl
    rw [Tree.isLeaf_leaf, if_pos rfl]
    rw [Tree.text_leaf, f.length_text] at hi
    have hlt : i < f.data.size := by
      have := f.len_le
      rw [f.size_data]
      omega
    have hget : Runs (fun _ => False) (f.data.get i) fun c => (Tree.leaf a f).text[i]? = some c := by
      rw [Chars.get_eq hlt, Tree.text_leaf, Leaf.text, List.getElem?_take_of_lt hi]
      exact Runs.ok (List.getElem?_eq_getElem hlt)
    exact onChars_reads hget
  | branch a data l r ihl ihr =>
    obtain ⟨m, rfl⟩ := Nat.exists_eq_succ_of_ne_zero (Nat.ne_of_gt ((Tree.depth_pos _).trans_le hm))
    rw [Tree.depth] at hm
    have hl : l.nodes ⊆ own := fun q hq => hsub (by simp [Tree.nodes, hq])
    have hr : r.nodes ⊆ own := fun q hq => hsub (by simp [Tree.nodes, hq])
    refine (hk.deref_reads (hsub (Tree.root_mem _))).bind ?_
    rintro n rfl
    rw [Tree.isLeaf_branch, if_neg Bool.false_ne_true]
    refine (hk.deref_reads (hl l.root_mem)).bind ?_
    rintro nl rfl
    rw [Tree.text_branch, List.length_append] at hi
    rw [Tree.len_node, Tree.text_branch]
    by_cases hlt : i < l.text.length
    · rw [if_pos hlt, List.getElem?_append_left hlt]
      exact ihl hl (by omega) hlt
    · rw [if_neg hlt, List.getElem?_append_right (Nat.le_of_not_lt hlt)]
      exact ihr hr (by omega) (by omega)

theorem charAt_reads (hk : Keeps M h (nodesOf t ++ own)) (i : Nat) :
    Reads allowed (charAt (addrOf t) i) h (· = (textOf t).getD i nul) := by
  cases t with
  | none => exact Runs.ok ⟨rfl, rfl⟩
  | some t =>
    refine (hk.deref_reads (List.mem_append_left _ t.root_mem)).bind ?_
    rintro n rfl
    rw [Tree.len_node, textOf_some, List.getD_eq_getElem?_getD]
    by_cases hi : t.text.length ≤ i
    · rw [if_pos hi, List.getElem?_eq_none hi]
      exact Runs.ok ⟨rfl, rfl⟩
    · rw [if_neg hi]
      refine rounds_reads.bind ?_
      rintro m rfl
      refine (charAtLoop_reads hk (fun q hq => List.mem_append_left _ hq)
        (hk.depth_le.trans (Nat.le_succ _)) (Nat.lt_of_not_le hi)).mono ?_
      rintro ⟨c, s⟩ ⟨hc, hs⟩
      refine ⟨?_, hs⟩
      rw [hc]
      rfl

/-- So many characters are written that the array has room for a NUL. -/
theorem subLoop_reads {i n k : Nat} {out₀ out : Chars} {piece : List Code}
    (hk : Keeps M h (nodesOf t ++ own)) (hi : i < 2 ^ 64)
    (hpiece : piece = (((textOf t).drop i).take n).take out₀.high) (hle : k ≤ piece.length)
    (hout : out.cells = piece.take k ++ out₀.cells.drop k) :
    Reads allowed (subLoop (addrOf t) i n (textOf t).length out₀.high k out) h fun q =>
      q.1 = piece.length ∧ q.2.cells = piece ++ out₀.cells.drop piece.length := by
  have hlen : piece.length = min out₀.high (min n ((textOf t).length - i)) := by
    rw [hpiece, List.length_take, List.length_take, List.length_drop]
  have htext := hk.length_text_lt
  rw [subLoop]
  by_cases hlt : k < piece.length
  · have hwrap : wrap (i + k) = i + k := wrap_of_lt (by omega)
    rw [hwrap, if_pos ⟨by omega, by omega, by omega⟩]
    refine (hk.charAt_reads (i + k)).bind ?_
    rintro c rfl
    have hget : piece[k]? = (textOf t)[i + k]? := by
      rw [hpiece, List.getElem?_take_of_lt (by omega), List.getElem?_take_of_lt (by omega),
        List.getElem?_drop]
    rw [List.getD_eq_getElem?_getD, ← hget, List.getElem?_eq_getElem hlt, Option.getD_some]
    have hsize : k < out₀.cells.length := by
      have hhigh := out₀.high_add_one
      have hcells : out₀.cells.length = out₀.size := rfl
      omega
    have htake : (piece.take k).length = k := List.length_take_of_le hlt.le
    have hput : Runs (fun _ => False) (out.put k piece[k]) fun o =>
        o.cells = piece.take (k + 1) ++ out₀.cells.drop (k + 1) := by
      refine (Chars.put_runs ?_ _).mono fun o ho => ?_
      · rw [Chars.size, hout, List.length_append, htake, List.length_drop]
        omega
      · rw [ho, hout, List.set_append_right _ _ htake.le, htake, Nat.sub_self,
          List.drop_eq_getElem_cons hsize, List.set_cons_zero, List.take_succ_eq_append_getElem hlt,
          List.append_assoc, List.singleton_append]
    refine (onChars_reads hput).bind ?_
    intro o ho
    exact subLoop_reads hk hi hpiece hlt ho
  · have hend : k = piece.length := Nat.le_antisymm hle (Nat.le_of_not_lt hlt)
    have hstop : ¬ (k < n ∧ k < out₀.high ∧ wrap (i + k) < (textOf t).length) := by
      rintro ⟨hn, hhigh, hwrap⟩
      rcases Nat.lt_or_ge i (textOf t).length with h | h
      · rw [wrap_of_lt (by omega)] at hwrap
        omega
      · have hzero : k = 0 := by omega
        rw [hzero, Nat.add_zero, wrap_of_lt hi] at hwrap
        omega
    rw [if_neg hstop]
    refine Runs.ok ⟨⟨hend, ?_⟩, rfl⟩
    rw [hout, hend, List.take_length]
termination_by out₀.high - k
decreasing_by omega

theorem sub_reads {i : Nat} (hk : Keeps M h (nodesOf t ++ own)) (hi : i < 2 ^ 64) (n : Nat)
    (out : Chars) : Reads allowed (sub (addrOf t) i n out) h fun o =>
      o.cells = written ((((textOf t).drop i).take n).take out.high) out := by
  rw [sub]
  refine hk.length_reads.bind ?_
  rintro _ rfl
  refine (subLoop_reads hk hi rfl (Nat.zero_le _) (by simp)).bind ?_
  rintro ⟨k, o⟩ ⟨rfl, ho⟩
  generalize hpiece : (((textOf t).drop i).take n).take out.high = piece at ho ⊢
  have hlt : piece.length < out.cells.length := by
    have hle : piece.length ≤ out.high := hpiece ▸ List.length_take_le ..
    exact hle.trans_lt out.high_lt
  have hput : Runs (fun _ => False) (o.put piece.length nul) fun o' => o'.cells = written piece out := by
    refine (Chars.put_runs ?_ nul).mono fun o' ho' => ?_
    · rw [Chars.size, ho, List.length_append, List.length_drop]
      omega
    · rw [ho', ho, List.set_append_right _ _ le_rfl, Nat.sub_self, List.drop_eq_getElem_cons hlt,
        List.set_cons_zero, written]
  exact onChars_reads hput

theorem toString_reads (hk : Keeps M h (nodesOf t ++ own)) (out : Chars) :
    Reads allowed (toString (addrOf t) out) h fun o =>
      o.cells = written ((textOf t).take out.high) out := by
  rw [toString]
  refine hk.length_reads.bind ?_
  rintro _ rfl
  refine (hk.sub_reads (Nat.two_pow_pos 64) _ out).mono ?_
  rintro ⟨o, s⟩ ⟨ho, hs⟩
  rw [List.drop_zero, List.take_length] at ho
  exact ⟨ho, hs⟩

/-- A count over a tree that cannot be too large. -/
theorem fold_reads {f : Nat → Nat → Nat} {g : Tree → Nat} (hleaf : ∀ a d, g (.leaf a d) = 1)
    (hbranch : ∀ a d l r, (Tree.branch a d l r).nodes.length ≤ 2 ^ 57 →
      f (g l) (g r) = g (.branch a d l r)) {t : Tree} {m : Nat} (hk : Keeps M h own)
    (hsub : t.nodes ⊆ own) (hlen : t.nodes.length ≤ 2 ^ 57) (hm : t.depth ≤ m) :
    Reads allowed (fold f m (some t.addr)) h (· = g t) := by
  induction t generalizing m with
  | leaf a d =>
    obtain ⟨m, rfl⟩ := Nat.exists_eq_succ_of_ne_zero (Nat.ne_of_gt hm)
    refine (hk.deref_reads (hsub (Tree.root_mem _))).bind ?_
    rintro n rfl
    rw [Tree.isLeaf_leaf, if_pos rfl, hleaf]
    exact Runs.ok ⟨rfl, rfl⟩
  | branch a d l r ihl ihr =>
    obtain ⟨m, rfl⟩ := Nat.exists_eq_succ_of_ne_zero (Nat.ne_of_gt ((Tree.depth_pos _).trans_le hm))
    rw [Tree.depth] at hm
    have hl : l.nodes ⊆ own := fun q hq => hsub (by simp [Tree.nodes, hq])
    have hr : r.nodes ⊆ own := fun q hq => hsub (by simp [Tree.nodes, hq])
    have hlen' := hlen
    rw [Tree.nodes, List.length_cons, List.length_append] at hlen'
    refine (hk.deref_reads (hsub (Tree.root_mem _))).bind ?_
    rintro n rfl
    rw [Tree.isLeaf_branch, if_neg Bool.false_ne_true]
    refine (ihl hl (by omega) (by omega)).bind ?_
    rintro x rfl
    refine (ihr hr (by omega) (by omega)).bind ?_
    rintro y rfl
    exact Runs.ok ⟨hbranch a d l r hlen, rfl⟩

theorem length_nodes_le {t : Tree} (hk : Keeps M h (t.nodes ++ own)) : t.nodes.length ≤ 2 ^ 57 := by
  have hroom := hk.room
  have hle := M.room_le
  rw [List.length_append] at hroom
  omega

/-- The whole count. -/
theorem fold_rounds {f : Nat → Nat → Nat} {g : Tree → Nat} (hleaf : ∀ a d, g (.leaf a d) = 1)
    (hbranch : ∀ a d l r, (Tree.branch a d l r).nodes.length ≤ 2 ^ 57 →
      f (g l) (g r) = g (.branch a d l r)) (hk : Keeps M h (nodesOf t ++ own)) :
    Reads allowed (rounds >>= fun m => fold f m (addrOf t)) h (· = t.elim 0 g) := by
  refine rounds_reads.bind ?_
  rintro m rfl
  cases t with
  | none => exact Runs.ok ⟨rfl, rfl⟩
  | some t =>
    exact fold_reads hleaf hbranch hk (fun q hq => List.mem_append_left _ hq) hk.length_nodes_le
      (hk.depth_le.trans (Nat.le_succ _))

theorem depth_reads (hk : Keeps M h (nodesOf t ++ own)) :
    Reads allowed (depth (addrOf t)) h (· = t.elim 0 Tree.depth) := by
  refine fold_rounds (fun _ _ => rfl) (fun a d l r hlen => ?_) hk
  have hl := l.depth_le
  have hr := r.depth_le
  rw [Tree.nodes, List.length_cons, List.length_append] at hlen
  rw [wrap_of_lt (by omega), wrap_of_lt (by omega), Tree.depth]
  split_ifs with hlt
  · rw [Nat.max_eq_left hlt.le]
  · rw [Nat.max_eq_right (Nat.le_of_not_lt hlt)]

theorem leaves_reads (hk : Keeps M h (nodesOf t ++ own)) :
    Reads allowed (leaves (addrOf t)) h (· = t.elim 0 fun t => t.leaves.length) := by
  refine fold_rounds (fun _ _ => rfl) (fun a d l r hlen => ?_) hk
  have hl := l.length_leaves_le
  have hr := r.length_leaves_le
  rw [Tree.nodes, List.length_cons, List.length_append] at hlen
  rw [wrap_of_lt (by omega), Tree.leaves, List.length_append]

theorem nodes_reads (hk : Keeps M h (nodesOf t ++ own)) :
    Reads allowed (nodes (addrOf t)) h (· = (nodesOf t).length) := by
  have hbranch : ∀ a d l r, (Tree.branch a d l r).nodes.length ≤ 2 ^ 57 →
      wrap (wrap (1 + l.nodes.length) + r.nodes.length) = (Tree.branch a d l r).nodes.length := by
    intro a d l r hlen
    rw [Tree.nodes, List.length_cons, List.length_append] at hlen ⊢
    have hwrap : wrap (1 + l.nodes.length) = 1 + l.nodes.length := wrap_of_lt (by omega)
    rw [hwrap, wrap_of_lt (by omega)]
    omega
  have hfold : Reads allowed (rounds >>= fun m => fold (fun x y => wrap (wrap (1 + x) + y)) m (addrOf t)) h
      (· = t.elim 0 fun t => t.nodes.length) := fold_rounds (fun _ _ => rfl) hbranch hk
  cases t with
  | none => exact hfold
  | some t => exact hfold

end Keeps
end reads
end NewM2.TextRope
