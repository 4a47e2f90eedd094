import Mathlib
import NewM2.Util.TextRope.Editing

/-!
# Balancing a rope (`library/utilmod/TextRope.mod`)

`Balance` gathers the leaves, disposes of the branches and makes new ones over the leaves, half of them
on each side. -/

namespace NewM2.TextRope
open Handles

/-- `Gather`: `arr` and `count`. -/
def gatherIn : Nat → Rope → List Rope → Nat → Proc (List Rope × Nat)
  | 0, _, _, _ => stop .rounds
  | _ + 1, none, arr, count => pure (arr, count)
  | m + 1, some a, arr, count => do
    let n ← deref (some a)
    if n.isLeaf then
      if count < arr.length then pure (arr.set count (some a), count + 1) else pure (arr, count)
    else do
      let (arr, count) ← gatherIn m n.left arr count
      let (arr, count) ← gatherIn m n.right arr count
      dispose (some a)
      pure (arr, count)

section memory
variable (M : Memory)

def buildBalanced (arr : List Rope) (lo hi : Nat) : Proc Rope :=
  if lo = hi then
    match arr[lo]? with
    | some r => pure r
    | none => stop (.array .outside)
  else if lo < hi then do
    let l ← buildBalanced arr lo ((lo + hi) / 2)
    let r ← buildBalanced arr ((lo + hi) / 2 + 1) hi
    makeBranch M l r
  else stop .rounds -- it would call itself without end
termination_by hi - lo

def balance : Rope → Proc Rope
  | none => pure none
  | some a => do
    let n ← leaves (some a)
    if maxLeaves < n then pure (some a)
    else do
      let m ← rounds
      let (arr, count) ← gatherIn m (some a) M.arr 0
      if count = 0 then pure none else buildBalanced M arr 0 (count - 1)

end memory

/-! ## The least depth -/

/-- No tree with as many leaves is less deep. -/
def Tree.Balanced (t : Tree) : Prop := ∀ t' : Tree, t'.leaves.length = t.leaves.length → t.depth ≤ t'.depth

namespace Tree

theorem length_leaves_pos (t : Tree) : 0 < t.leaves.length := by
  induction t with
  | leaf a f => exact Nat.zero_lt_one
  | branch a data l r ihl ihr =>
    rw [leaves, List.length_append]
    omega

theorem length_leaves_le_pow (t : Tree) : t.leaves.length ≤ 2 ^ (t.depth - 1) := by
  induction t with
  | leaf a f => exact le_rfl
  | branch a data l r ihl ihr =>
    have hl : 2 ^ (l.depth - 1) ≤ 2 ^ (max l.depth r.depth - 1) := Nat.pow_le_pow_right two_pos (by omega)
    have hr : 2 ^ (r.depth - 1) ≤ 2 ^ (max l.depth r.depth - 1) := Nat.pow_le_pow_right two_pos (by omega)
    have hpos := l.depth_pos
    rw [leaves, List.length_append, depth, Nat.add_sub_cancel,
      show max l.depth r.depth = max l.depth r.depth - 1 + 1 by omega, Nat.pow_succ]
    omega

theorem clog_lt_depth (t : Tree) : Nat.clog 2 t.leaves.length < t.depth := by
  have hpos := t.depth_pos
  have hle := Nat.clog_le_of_le_pow t.length_leaves_le_pow
  omega

theorem Balanced.of_depth {t : Tree} (h : t.depth = Nat.clog 2 t.leaves.length + 1) : t.Balanced := by
  intro t' hlen
  rw [h, ← hlen]
  exact t'.clog_lt_depth

end Tree

/-! ## What is left -/

/-- The records of leaves. -/
def leafNodes (ls : List (Handle × Leaf)) : List (Handle × Node) := ls.map fun q => (q.1, q.2.node)

section balance
variable {M : Memory} {h : Heap Node} {own : List (Handle × Node)} {arr : List Rope} {m count : Nat}

theorem gatherIn_runs {t : Tree} (hk : Keeps M h (t.nodes ++ own)) (hm : t.depth ≤ m)
    (hcount : count + t.leaves.length ≤ arr.length) :
    Does (gatherIn m (some t.addr) arr count h) fun q =>
      q.1.2 = count + t.leaves.length ∧ q.1.1.length = arr.length ∧
      q.1.1.take q.1.2 = arr.take count ++ t.leaves.map (fun p => some p.1) ∧
      Keeps M q.2 (leafNodes t.leaves ++ own) := by
  induction t generalizing m h own arr count with
  | leaf a f =>
    obtain ⟨m, rfl⟩ := Nat.exists_eq_succ_of_ne_zero (Nat.ne_of_gt hm)
    rw [Tree.leaves, List.length_singleton] at hcount
    refine (hk.deref_reads (List.mem_append_left _ (Tree.root_mem _))).bind ?_
    rintro n rfl
    have hroom : count < arr.length := hcount
    rw [Tree.isLeaf_leaf, if_pos rfl, if_pos hroom]
    refine Runs.ok ⟨rfl, List.length_set, ?_, hk⟩
    change (arr.set count (some a)).take (count + 1) = arr.take count ++ [some a]
    have hlt : count < (arr.set count (some a)).length := by rwa [List.length_set]
    rw [List.take_succ_eq_append_getElem hlt, List.getElem_set_self, List.take_set_of_le le_rfl]
  | branch a data l r ihl ihr =>
    obtain ⟨m, rfl⟩ := Nat.exists_eq_succ_of_ne_zero (Nat.ne_of_gt ((Tree.depth_pos _).trans_le hm))
    rw [Tree.depth] at hm
    rw [Tree.leaves, List.length_append] at hcount
    refine (hk.deref_reads (List.mem_append_left _ (Tree.root_mem _))).bind ?_
    rintro n rfl
    rw [Tree.isLeaf_branch, if_neg Bool.false_ne_true]
    have hk₁ : Keeps M h (l.nodes ++ ((a, (Tree.branch a data l r).node) :: (r.nodes ++ own))) :=
      hk.count fun q => by
        simp only [Tree.nodes, List.count_append, List.count_cons]
        omega
    refine (ihl hk₁ (by omega) (by omega)).bindS ?_
    rintro ⟨arr₁, _⟩ h₂ ⟨rfl, hlen₁, htake₁, hk₂⟩
    have hk₃ : Keeps M h₂ (r.nodes ++
        ((a, (Tree.branch a data l r).node) :: (leafNodes l.leaves ++ own))) := hk₂.count fun q => by
      simp only [List.count_append, List.count_cons]
      omega
    have hroom : count + l.leaves.length + r.leaves.length ≤ arr₁.length := by
      rw [hlen₁]
      omega
    refine (ihr hk₃ (by omega) hroom).bindS ?_
    rintro ⟨arr₂, _⟩ h₄ ⟨rfl, hlen₂, htake₂, hk₄⟩
    have hk₅ : Keeps M h₄ ((a, (Tree.branch a data l r).node) ::
        (leafNodes (l.leaves ++ r.leaves) ++ own)) := hk₄.count fun q => by
      simp only [leafNodes, List.map_append, List.count_append, List.count_cons]
      omega
    refine hk₅.dispose_runs.bindS ?_
    intro _ h₆ hk₆
    refine Runs.ok ⟨?_, hlen₂.trans hlen₁, ?_, hk₆⟩
    · change count + l.leaves.length + r.leaves.length = count + (l.leaves ++ r.leaves).length
      rw [List.length_append]
      omega
    · rw [htake₂, htake₁, Tree.leaves, List.map_append, List.append_assoc]

/-- The tree over the leaves that stand in the array from `lo` to `hi`. -/
theorem buildBalanced_runs {ls : List (Handle × Leaf)} {lo hi : Nat} (hle : lo ≤ hi)
    (hlen : ls.length = hi - lo + 1) (harr : ∀ i, i < ls.length → arr[lo + i]? = (ls.map (some ·.1))[i]?)
    (hk : Keeps M h (leafNodes ls ++ own)) :
    Does (buildBalanced M arr lo hi h) fun q => ∃ t : Tree, q.1 = some t.addr ∧ t.leaves = ls ∧
      t.depth = Nat.clog 2 ls.length + 1 ∧ Keeps M q.2 (t.nodes ++ own) := by
  induction hn : hi - lo using Nat.strong_induction_on generalizing lo hi ls h own with
  | _ n ih =>
    subst hn
    rw [buildBalanced]
    by_cases heq : lo = hi
    · obtain ⟨p, rfl⟩ := List.length_eq_one_iff.1 (by omega : ls.length = 1)
      have hget : arr[lo]? = some (some p.1) := harr 0 Nat.zero_lt_one
      rw [if_pos heq, hget]
      exact Runs.ok ⟨.leaf p.1 p.2, rfl, rfl, rfl, hk⟩
    have hlt : lo < hi := Nat.lt_of_le_of_ne hle heq
    rw [if_neg heq, if_pos hlt]
    -- the left half has the leaf in the middle
    let k := (lo + hi) / 2 - lo + 1
    have hk₀ : Keeps M h (leafNodes (ls.take k) ++ (leafNodes (ls.drop k) ++ own)) := by
      rwa [← List.append_assoc, leafNodes, leafNodes, ← List.map_append, List.take_append_drop]
    have htake : (ls.take k).length = (lo + hi) / 2 - lo + 1 := by
      rw [List.length_take]
      omega
    have hdrop : (ls.drop k).length = hi - ((lo + hi) / 2 + 1) + 1 := by
      rw [List.length_drop]
      omega
    have hleft : ∀ i, i < (ls.take k).length → arr[lo + i]? = ((ls.take k).map (some ·.1))[i]? := by
      intro i hi
      rw [harr i (by omega), List.map_take, List.getElem?_take_of_lt (by omega)]
    have hright : ∀ i, i < (ls.drop k).length →
        arr[(lo + hi) / 2 + 1 + i]? = ((ls.drop k).map (some ·.1))[i]? := by
      intro i hi
      rw [List.map_drop, List.getElem?_drop, ← harr (k + i) (by omega)]
      congr 1
      omega
    refine (ih _ (by omega) (by omega) htake hleft hk₀ rfl).bindS ?_
    rintro _ h₁ ⟨l, rfl, hl, hld, hk₁⟩
    have hk₂ : Keeps M h₁ (leafNodes (ls.drop k) ++ (l.nodes ++ own)) := hk₁.count fun q => by
      simp only [List.count_append]
      omega
    refine (ih _ (by omega) (by omega) hdrop hright hk₂ rfl).bindS ?_
    rintro _ h₃ ⟨r, rfl, hr, hrd, hk₃⟩
    have hk₄ : Keeps M h₃ (l.nodes ++ (r.nodes ++ own)) := hk₃.count fun q => by
      simp only [List.count_append]
      omega
    refine (makeBranch_tree hk₄).mono ?_
    rintro q ⟨a, data, hq, hk₅⟩
    refine ⟨.branch a data l r, hq, ?_, ?_, hk₅⟩
    · rw [Tree.leaves, hl, hr, List.take_append_drop]
    · have hhalf : (ls.length + 2 - 1) / 2 = (ls.take k).length := by omega
      have hmono : Nat.clog 2 (ls.drop k).length ≤ Nat.clog 2 (ls.take k).length :=
        Nat.clog_mono_right 2 (by omega)
      rw [Tree.depth, hld, hrd, Nat.clog_of_two_le one_lt_two (by omega : 2 ≤ ls.length), hhalf]
      omega

/-- The same text, and the same leaves under new branches, if there are not too many. -/
theorem balance_runs {t : Tree} (hk : Keeps M h (t.nodes ++ own)) :
    Does (balance M (some t.addr) h) fun q => ∃ t' : Tree, q.1 = some t'.addr ∧ t'.leaves = t.leaves ∧
      (t.leaves.length ≤ maxLeaves → t'.Balanced) ∧ Keeps M q.2 (t'.nodes ++ own) := by
  refine (Keeps.leaves_reads (t := some t) hk).bind ?_
  rintro n (rfl : n = t.leaves.length)
  by_cases hmany : maxLeaves < t.leaves.length
  · rw [if_pos hmany]
    exact Runs.ok ⟨t, rfl, rfl, fun hle => absurd hmany (Nat.not_lt.2 hle), hk⟩
  rw [if_neg hmany]
  refine rounds_reads.bind ?_
  rintro m rfl
  have hroom : 0 + t.leaves.length ≤ M.arr.length := by
    rw [M.length_arr]
    omega
  refine (gatherIn_runs hk (hk.depth_le.trans (Nat.le_succ _)) hroom).bindS ?_
  rintro ⟨arr, count⟩ h₁ ⟨hcount, hlen, htake, hk₁⟩
  obtain rfl : count = 0 + t.leaves.length := hcount
  have hpos := t.length_leaves_pos
  have hne : ¬ 0 + t.leaves.length = 0 := by omega
  dsimp only at htake hk₁ ⊢
  rw [if_neg hne]
  rw [List.take_zero, List.nil_append, Nat.zero_add] at htake
  have harr : ∀ i, i < t.leaves.length → arr[0 + i]? = (t.leaves.map (some ·.1))[i]? := by
    intro i hi
    rw [← htake, List.getElem?_take_of_lt hi, Nat.zero_add]
  refine (buildBalanced_runs (Nat.zero_le _) (by omega) harr hk₁).mono ?_
  rintro q ⟨t', hq, hleaves, hdepth, hk₂⟩
  exact ⟨t', hq, hleaves, fun _ => .of_depth (by rw [hdepth, hleaves]), hk₂⟩

end balance
end NewM2.TextRope
