import Mathlib
import NewM2.Lib.Chars
import NewM2.Lib.Handles

/-!
# Nodes of a rope (`library/utilmod/TextRope.mod`)

A rope is NIL or the handle of a node on the heap. A node is a leaf with at most `leafMax` characters, or
a branch with two ropes; its `len` counts the characters below it. The recursive procedures take the
depth they may go to as an argument, and their callers give them more than there have been nodes.

`Keeps M h own`: the nodes on the heap are those in `own`, with the records listed there. A tree that is
owned, `Tree.nodes`, is part of such a list. -/

namespace NewM2.TextRope
open Handles

def leafMax : Nat := 64

def maxLeaves : Nat := 8192

/-- NIL is the empty rope. -/
abbrev Rope := Option Handle

structure Node where
  isLeaf : Bool
  len : Nat
  data : Chars
  left : Rope
  right : Rope
deriving DecidableEq

inductive Stop
  | noMemory
  | array (f : Fault)
  | nilPointer
  | dangling
  | rounds
  /-- A rope variable that is not there. -/
  | noRope
deriving DecidableEq

abbrev Proc := StateT (Heap Node) (Except Stop)

/-- A node takes 160 bytes, so no address space has room for `2 ^ 57` of them. What is in memory when a
procedure gets it is not defined. -/
structure Memory where
  room : Nat
  room_le : room ≤ 2 ^ 57
  node : Handle → Node
  size_data : ∀ a, (node a).data.size = leafMax
  arr : List Rope
  length_arr : arr.length = maxLeaves

def stop {α : Type} (e : Stop) : Proc α := fun _ => .error e

/-- `r^` -/
def deref : Rope → Proc Node
  | none => stop .nilPointer
  | some a => Handles.deref .dangling a

/-- `r^ := n` -/
def assign : Rope → Node → Proc Unit
  | none, _ => stop .nilPointer
  | some a, n => update .dangling a n

def dispose : Rope → Proc Unit
  | none => pure ()
  | some a => Handles.dispose .dangling a

def onChars {α : Type} (x : Except Fault α) : Proc α := pureOn (x.mapError .array)

/-- More than a chain of nodes can be long. -/
def rounds : Proc Nat := fun h => .ok (h.length + 1, h)

section memory
variable (M : Memory)

/-- `NEW` -/
def new : Proc Rope := fun h =>
  if M.room ≤ (inUse h).length then .error .noMemory
  else .ok (some h.length, h ++ [some (M.node h.length)])

def newLeaf (src : Chars) (start count : Nat) : Proc Rope := do
  let n ← new M
  let node ← deref n
  let (_, data) ← onChars (src.copyLoop start 0 count (fun _ => true) 0 node.data)
  assign n { isLeaf := true, len := count, data := data, left := none, right := none }
  pure n

def makeBranch : Rope → Rope → Proc Rope
  | none, b => pure b
  | a, none => pure a
  | some a, some b => do
    let n ← new M
    let node ← deref n
    let x ← deref (some a)
    let y ← deref (some b)
    assign n { node with isLeaf := false, len := wrap (x.len + y.len), left := some a, right := some b }
    pure n

end memory

/-! ## Trees of nodes -/

structure Leaf where
  data : Chars
  len : Nat
  size_data : data.size = leafMax
  len_pos : 0 < len
  len_le : len ≤ leafMax

def Leaf.text (f : Leaf) : List Code := f.data.cells.take f.len

def Leaf.node (f : Leaf) : Node :=
  { isLeaf := true, len := f.len, data := f.data, left := none, right := none }

/-- A tree with the handles of its nodes; `data` of a branch is not in use. -/
inductive Tree
  | leaf (a : Handle) (f : Leaf)
  | branch (a : Handle) (data : Chars) (l r : Tree)

namespace Tree

def addr : Tree → Handle
  | leaf a _ => a
  | branch a _ _ _ => a

/-- The leaves from left to right. -/
def leaves : Tree → List (Handle × Leaf)
  | leaf a f => [(a, f)]
  | branch _ _ l r => l.leaves ++ r.leaves

def text (t : Tree) : List Code := t.leaves.flatMap fun q => q.2.text

def depth : Tree → Nat
  | leaf _ _ => 1
  | branch _ _ l r => max l.depth r.depth + 1

/-- The record of the root. -/
def node : Tree → Node
  | leaf _ f => f.node
  | branch a data l r =>
    { isLeaf := false, len := (branch a data l r).text.length, data := data,
      left := some l.addr, right := some r.addr }

/-- The nodes with their records. -/
def nodes : Tree → List (Handle × Node)
  | leaf a f => [(a, f.node)]
  | branch a data l r => (a, (branch a data l r).node) :: (l.nodes ++ r.nodes)

end Tree

def addrOf (t : Option Tree) : Rope := t.map Tree.addr

def textOf (t : Option Tree) : List Code := t.elim [] Tree.text

def nodesOf (t : Option Tree) : List (Handle × Node) := t.elim [] Tree.nodes

@[simp] theorem addrOf_none : addrOf none = none := rfl
@[simp] theorem addrOf_some (t : Tree) : addrOf (some t) = some t.addr := rfl
@[simp] theorem textOf_none : textOf none = [] := rfl
@[simp] theorem textOf_some (t : Tree) : textOf (some t) = t.text := rfl
@[simp] theorem nodesOf_none : nodesOf none = [] := rfl
@[simp] theorem nodesOf_some (t : Tree) : nodesOf (some t) = t.nodes := rfl

section trees
variable {a : Handle} {data : Chars} {f : Leaf} {l r t : Tree}

theorem Leaf.length_text (f : Leaf) : f.text.length = f.len := by
  have hle : f.len ≤ f.data.size := f.size_data ▸ f.len_le
  rw [Leaf.text, List.length_take]
  exact Nat.min_eq_left hle

namespace Tree

@[simp] theorem text_leaf : (leaf a f).text = f.text := by simp [text, leaves]

@[simp] theorem text_branch : (branch a data l r).text = l.text ++ r.text := by simp [text, leaves]

@[simp] theorem len_node (t : Tree) : t.node.len = t.text.length := by
  cases t with
  | leaf a f => rw [text_leaf, f.length_text]; rfl
  | branch a data l r => rfl

@[simp] theorem isLeaf_leaf : (leaf a f).node.isLeaf = true := rfl

@[simp] theorem isLeaf_branch : (branch a data l r).node.isLeaf = false := rfl

theorem root_mem (t : Tree) : (t.addr, t.node) ∈ t.nodes := by
  cases t with
  | leaf a f => exact List.mem_singleton_self _
  | branch a data l r => exact List.mem_cons_self ..

theorem depth_pos (t : Tree) : 0 < t.depth := by
  cases t with
  | leaf a f => exact Nat.zero_lt_one
  | branch a data l r => exact Nat.succ_pos _

theorem depth_le (t : Tree) : t.depth ≤ t.nodes.length := by
  induction t with
  | leaf a f => exact le_rfl
  | branch a data l r ihl ihr =>
    rw [depth, nodes, List.length_cons, List.length_append]
    omega

theorem length_leaves_le (t : Tree) : t.leaves.length ≤ t.nodes.length := by
  induction t with
  | leaf a f => exact le_rfl
  | branch a data l r ihl ihr =>
    rw [leaves, nodes, List.length_append, List.length_cons, List.length_append]
    omega

theorem length_text_le (t : Tree) : t.text.length ≤ leafMax * t.nodes.length := by
  induction t with
  | leaf a f =>
    rw [text_leaf, f.length_text]
    exact f.len_le.trans (Nat.mul_one leafMax).ge
  | branch a data l r ihl ihr =>
    rw [text_branch, List.length_append, nodes, List.length_cons, List.length_append, Nat.mul_succ,
      Nat.mul_add]
    omega

theorem text_ne_nil (t : Tree) : t.text ≠ [] := by
  induction t with
  | leaf a f =>
    rw [text_leaf]
    exact List.ne_nil_of_length_pos (f.length_text ▸ f.len_pos)
  | branch a data l r ihl ihr =>
    rw [text_branch]
    exact fun h => ihl (List.append_eq_nil_iff.1 h).1

end Tree

theorem textOf_eq_nil {t : Option Tree} : textOf t = [] ↔ t = none := by
  cases t with
  | none => simp
  | some t => simp [t.text_ne_nil]

end trees

/-! ## What is owned -/

structure Keeps (M : Memory) (h : Heap Node) (own : List (Handle × Node)) : Prop where
  owns : Owns Eq [] h own
  room : own.length ≤ M.room

/-- Only a lack of memory stops it. -/
abbrev Does {α : Type} (x : Except Stop (α × Heap Node)) (Q : α × Heap Node → Prop) : Prop :=
  Runs (· = .noMemory) x Q

/-- The result is a rope with the text, on top of what is owned. -/
def Makes (M : Memory) (own : List (Handle × Node)) (text : List Code) (q : Rope × Heap Node) : Prop :=
  ∃ t, q.1 = addrOf t ∧ textOf t = text ∧ Keeps M q.2 (nodesOf t ++ own)

namespace Keeps
variable {M : Memory} {h : Heap Node} {own own' : List (Handle × Node)} {a : Handle} {n n' : Node}

theorem perm (hk : Keeps M h own) (hp : own.Perm own') : Keeps M h own' :=
  ⟨hk.owns.perm hp, hp.length_eq ▸ hk.room⟩

/-- The same nodes in another order. -/
theorem count (hk : Keeps M h own) (hp : ∀ q, own.count q = own'.count q) : Keeps M h own' :=
  hk.perm (List.perm_iff_count.2 hp)

theorem deref_reads {allowed : Stop → Prop} (hk : Keeps M h own) (hmem : (a, n) ∈ own) :
    Reads allowed (deref (some a)) h (· = n) :=
  Handles.deref_reads (hk.owns.holds _ hmem).2

theorem new_runs (hk : Keeps M h own) :
    Does (new M h) fun q => ∃ a n, q.1 = some a ∧ n.data.size = leafMax ∧ Keeps M q.2 ((a, n) :: own) := by
  rw [new, hk.owns.length_inUse]
  split_ifs with hfull
  · exact Runs.error rfl
  · exact Runs.ok ⟨h.length, M.node h.length, rfl, M.size_data _, hk.owns.trans (.alloc rfl),
      Nat.lt_of_not_le hfull⟩

theorem assign_runs (hk : Keeps M h ((a, n) :: own)) :
    Does (assign (some a) n' h) fun q => Keeps M q.2 ((a, n') :: own) :=
  (update_runs hk.owns rfl).mono fun _ ho => ⟨ho, hk.room⟩

theorem dispose_runs (hk : Keeps M h ((a, n) :: own)) :
    Does (dispose (some a) h) fun q => Keeps M q.2 own :=
  (Handles.dispose_runs hk.owns).mono fun _ ho => ⟨ho, (Nat.le_succ _).trans hk.room⟩

theorem length_le (hk : Keeps M h own) : own.length ≤ h.length :=
  hk.owns.length_inUse ▸ length_inUse_le h

end Keeps

theorem onChars_reads {α : Type} {x : Except Fault α} {Q : α → Prop} {h : Heap Node}
    {allowed : Stop → Prop} (hx : Runs (fun _ => False) x Q) : Reads allowed (onChars x) h Q := by
  rcases x with e | v
  · exact absurd hx id
  · exact ⟨hx, rfl⟩

/-! ## Construction -/

section construction
variable {M : Memory} {h : Heap Node} {own : List (Handle × Node)} {src : Chars} {start n : Nat}

theorem newLeaf_runs (hk : Keeps M h own) (hpos : 0 < n) (hle : n ≤ leafMax)
    (hsrc : start + n ≤ src.size) :
    Does (newLeaf M src start n h) (Makes M own ((src.cells.drop start).take n)) := by
  rw [newLeaf]
  refine hk.new_runs.bindS ?_
  rintro _ h₁ ⟨a, node, rfl, hsize, hk₁⟩
  refine (hk₁.deref_reads (List.mem_cons_self ..)).bind ?_
  rintro node rfl
  have hcopy : Runs (fun _ => False) (Chars.copyLoop src start 0 n (fun _ => true) 0 node.data) fun x =>
      x.1 = n ∧ Chars.Copied src.cells start 0 n node.data x.2 :=
    Chars.copyLoop_runs le_rfl (fun _ _ => rfl) (fun h => absurd h (lt_irrefl n)) (.inr hsrc) (.inr (by omega))
  refine (onChars_reads hcopy).bind ?_
  rintro ⟨k, data⟩ ⟨-, hcopied⟩
  refine (Keeps.assign_runs hk₁).bindS ?_
  intro _ h₂ hk₂
  refine Runs.ok ⟨some (.leaf a ⟨data, n, hcopied.size.trans hsize, hpos, hle⟩), rfl, ?_, hk₂⟩
  have htake := hcopied.take (by omega)
  rw [Nat.zero_add, List.take_zero, List.nil_append] at htake
  exact (Tree.text_leaf ..).trans htake

/-- The branch over two trees. -/
theorem makeBranch_tree {l r : Tree} (hk : Keeps M h (l.nodes ++ (r.nodes ++ own))) :
    Does (makeBranch M (some l.addr) (some r.addr) h) fun q =>
      ∃ a data, q.1 = some a ∧ Keeps M q.2 ((Tree.branch a data l r).nodes ++ own) := by
  rw [makeBranch]
  refine hk.new_runs.bindS ?_
  rintro _ h₁ ⟨a, node, rfl, -, hk₁⟩
  refine (hk₁.deref_reads (List.mem_cons_self ..)).bind ?_
  rintro node rfl
  have hl : (l.addr, l.node) ∈ (a, node) :: (l.nodes ++ (r.nodes ++ own)) := by simp [l.root_mem]
  have hr : (r.addr, r.node) ∈ (a, node) :: (l.nodes ++ (r.nodes ++ own)) := by simp [r.root_mem]
  refine (hk₁.deref_reads hl).bind ?_
  rintro _ rfl
  refine (hk₁.deref_reads hr).bind ?_
  rintro _ rfl
  -- the memory has no room for a text that is too long
  have hlen : l.text.length + r.text.length < 2 ^ 64 := by
    have hroom := hk₁.room
    have hle := M.room_le
    have h₁ := l.length_text_le
    have h₂ := r.length_text_le
    rw [List.length_cons, List.length_append, List.length_append] at hroom
    rw [leafMax] at h₁ h₂
    omega
  refine (Keeps.assign_runs hk₁).bindS ?_
  intro _ h₂ hk₂
  refine Runs.ok ⟨a, node.data, rfl, ?_⟩
  rw [Tree.len_node, Tree.len_node, wrap_of_lt hlen] at hk₂
  rw [Tree.nodes, Tree.node, Tree.text_branch, List.length_append, List.cons_append, List.append_assoc]
  exact hk₂

end construction
end NewM2.TextRope
