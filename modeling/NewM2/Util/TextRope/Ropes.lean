import Mathlib
import NewM2.Util.TextRope.Balance

/-!
# Runs of rope operations (`library/utilmod/TextRope.mod`)

A client has variables with ropes in them and gets a new one with each rope that is made. A rope that an
operation has consumed must not be used again: its variable has no text any more. `Op.spec` says what the
operations do to texts, `Op.run` does it with nodes. -/

namespace NewM2.TextRope
open Handles

abbrev Card := BitVec 64

inductive Op
  | fromString (s : Chars)
  | concat (a b : Nat)
  | insert (a : Nat) (i : Card) (s : Chars)
  | append (a : Nat) (s : Chars)
  | deleteRange (a : Nat) (i n : Card)
  | balance (a : Nat)
  | free (a : Nat)
  | length (a : Nat)
  | charAt (a : Nat) (i : Card)
  | sub (a : Nat) (i n : Card) (out : Chars)
  | toString (a : Nat) (out : Chars)

inductive Answer
  | none
  | number (n : Nat)
  | char (c : Code)
  /-- The elements of an array. -/
  | cells (cs : List Code)
deriving DecidableEq

/-! ## On texts -/

abbrev Texts := List (Option (List Code))

def Texts.get (ts : Texts) (a : Nat) : Option (List Code) := ts[a]?.join

/-- The answer and the texts; there is none if the client does not keep to the rules. -/
def Op.spec : Op → Texts → Option (Answer × Texts)
  | fromString s, ts => some (.none, ts ++ [some s.text])
  | concat a b, ts => (ts.get a).bind fun u => (Texts.get (ts.set a none) b).map fun v =>
    (.none, (ts.set a none).set b none ++ [some (u ++ v)])
  | insert a i s, ts => (ts.get a).map fun u =>
    (.none, ts.set a none ++ [some (u.take i.toNat ++ s.text ++ u.drop i.toNat)])
  | append a s, ts => (ts.get a).map fun u => (.none, ts.set a none ++ [some (u ++ s.text)])
  | deleteRange a i n, ts => (ts.get a).map fun u =>
    (.none, ts.set a none ++ [some (u.take i.toNat ++ u.drop (i.toNat + n.toNat))])
  | balance a, ts => (ts.get a).map fun u => (.none, ts.set a (some u))
  | free a, ts => (ts.get a).map fun _ => (.none, ts.set a (some []))
  | length a, ts => (ts.get a).map fun u => (.number u.length, ts)
  | charAt a i, ts => (ts.get a).map fun u => (.char (u.getD i.toNat nul), ts)
  | sub a i n out, ts => (ts.get a).map fun u =>
    (.cells (written (((u.drop i.toNat).take n.toNat).take out.high) out), ts)
  | toString a out, ts => (ts.get a).map fun u => (.cells (written (u.take out.high) out), ts)

def specify : List Op → Texts → Option (List Answer × Texts)
  | [], ts => some ([], ts)
  | op :: ops, ts => (op.spec ts).bind fun q => (specify ops q.2).map fun r => (q.1 :: r.1, r.2)

/-! ## With nodes -/

structure State where
  heap : Heap Node
  vars : List Rope

namespace State

def rope (s : State) (a : Nat) : Except Stop Rope :=
  match s.vars[a]? with
  | some r => .ok r
  | none => .error .noRope

/-- The rope is in a new variable. -/
def push (s : State) (x : Proc Rope) : Except Stop (Answer × State) := do
  let q ← x s.heap
  .ok (.none, { heap := q.2, vars := s.vars ++ [q.1] })

/-- The rope is in the variable `a`. -/
def replace (s : State) (a : Nat) (x : Proc Rope) : Except Stop (Answer × State) := do
  let q ← x s.heap
  .ok (.none, { heap := q.2, vars := s.vars.set a q.1 })

def query {α : Type} (s : State) (x : Proc α) (f : α → Answer) : Except Stop (Answer × State) := do
  let q ← x s.heap
  .ok (f q.1, { s with heap := q.2 })

end State

def Op.run (M : Memory) (s : State) : Op → Except Stop (Answer × State)
  | fromString str => s.push (TextRope.fromString M str)
  | concat a b => do
    let x ← s.rope a
    let y ← s.rope b
    s.push (TextRope.concat M x y)
  | insert a i str => do
    let x ← s.rope a
    s.push (TextRope.insert M x i.toNat str)
  | append a str => do
    let x ← s.rope a
    s.push (TextRope.append M x str)
  | deleteRange a i n => do
    let x ← s.rope a
    s.push (TextRope.deleteRange M x i.toNat n.toNat)
  | balance a => do
    let x ← s.rope a
    s.replace a (TextRope.balance M x)
  | free a => do
    let x ← s.rope a
    s.replace a (TextRope.free x)
  | length a => do
    let x ← s.rope a
    s.query (TextRope.length x) .number
  | charAt a i => do
    let x ← s.rope a
    s.query (TextRope.charAt x i.toNat) .char
  | sub a i n out => do
    let x ← s.rope a
    s.query (TextRope.sub x i.toNat n.toNat out) fun o => .cells o.cells
  | toString a out => do
    let x ← s.rope a
    s.query (TextRope.toString x out) fun o => .cells o.cells

def execute (M : Memory) : List Op → State → Except Stop (List Answer × State)
  | [], s => .ok ([], s)
  | op :: ops, s => do
    let q ← op.run M s
    let r ← execute M ops q.2
    .ok (q.1 :: r.1, r.2)

/-! ## What the variables hold -/

/-- A variable with a consumed rope, or with the tree of its rope. -/
inductive Entry
  | used (r : Rope)
  | rope (t : Option Tree)

namespace Entry

def var : Entry → Rope
  | used r => r
  | rope t => addrOf t

def text : Entry → Option (List Code)
  | used _ => none
  | rope t => some (textOf t)

def nodes : Entry → List (Handle × Node)
  | used _ => []
  | rope t => nodesOf t

end Entry

/-- The nodes on the heap are those in `own` and those of the variables' trees, each in one place. -/
structure Tracks (M : Memory) (s : State) (own : List (Handle × Node)) (es : List Entry) : Prop where
  vars : s.vars = es.map Entry.var
  keeps : Keeps M s.heap (own ++ es.flatMap Entry.nodes)

section tracks
variable {M : Memory} {s : State} {own : List (Handle × Node)} {es : List Entry} {a b : Nat}
  {u v : List Code} {r : Rope}

theorem flatMap_set {e : Entry} (he : es[a]? = some e) :
    (es.flatMap Entry.nodes).Perm (e.nodes ++ (es.set a (.used r)).flatMap Entry.nodes) := by
  induction es generalizing a with
  | nil => exact absurd he (by simp)
  | cons e' es ih =>
    cases a with
    | zero =>
      obtain rfl : e' = e := Option.some.inj he
      exact List.Perm.refl _
    | succ a =>
      rw [List.set_cons_succ, List.flatMap_cons, List.flatMap_cons]
      exact ((ih he).append_left _).trans (List.perm_append_comm_assoc ..)

/-- A rope is taken out of its variable. -/
theorem Tracks.take (ht : Tracks M s own es) (hu : Texts.get (es.map Entry.text) a = some u) :
    ∃ t, textOf t = u ∧ s.rope a = .ok (addrOf t) ∧
      Tracks M s (nodesOf t ++ own) (es.set a (.used (addrOf t))) ∧
      (es.set a (.used (addrOf t))).map Entry.text = (es.map Entry.text).set a none := by
  rw [Texts.get, Option.join_eq_some_iff, List.getElem?_map, Option.map_eq_some_iff] at hu
  obtain ⟨e, he, htext⟩ := hu
  cases e with
  | used r => exact absurd htext (by simp [Entry.text])
  | rope t =>
    have hvar : s.vars[a]? = some (addrOf t) := by
      rw [ht.vars, List.getElem?_map, he]
      rfl
    refine ⟨t, Option.some.inj htext, by rw [State.rope, hvar], ⟨?_, ?_⟩, by rw [List.map_set]; rfl⟩
    · obtain ⟨hlt, heq⟩ := List.getElem?_eq_some_iff.1 hvar
      rw [List.map_set, ← ht.vars]
      change s.vars = s.vars.set a (addrOf t)
      rw [← heq, List.set_getElem_self]
    · rw [List.append_assoc]
      have hperm := flatMap_set (r := addrOf t) he
      exact ht.keeps.perm ((hperm.append_left own).trans (List.perm_append_comm_assoc ..))

variable {x : Proc Rope}

/-- The state has the texts, and balanced the tree of a variable that has just been balanced. -/
def Follows (M : Memory) (last : Option Op) (ts : Texts) (s : State) : Prop :=
  ∃ es, Tracks M s [] es ∧ es.map Entry.text = ts ∧ ∀ a, last = some (.balance a) →
    ∃ t, es[a]? = some (.rope t) ∧ ∀ t' ∈ t, t'.leaves.length ≤ maxLeaves → t'.Balanced

theorem push_runs {last : Option Op} (hlast : ∀ a, last ≠ some (.balance a))
    (hvars : s.vars = es.map Entry.var) (hx : Does (x s.heap) (Makes M (es.flatMap Entry.nodes) u)) :
    Runs (· = .noMemory) (s.push x) fun q =>
      q.1 = .none ∧ Follows M last (es.map Entry.text ++ [some u]) q.2 := by
  refine hx.bind ?_
  rintro ⟨_, h⟩ ⟨t, rfl, rfl, hk⟩
  refine Runs.ok ⟨rfl, es ++ [.rope t], ⟨?_, ?_⟩, ?_, fun a ha => absurd ha (hlast a)⟩
  · rw [hvars, List.map_append]
    rfl
  · rw [List.nil_append, List.flatMap_append, List.flatMap_singleton]
    exact hk.perm List.perm_append_comm
  · rw [List.map_append]
    rfl

/-- The procedure gives the variable another tree. -/
theorem replace_runs {last : Option Op} {P : Option Tree → Prop}
    (hlast : ∀ b, last = some (.balance b) →
      b = a ∧ ∀ t, P t → ∀ t' ∈ t, t'.leaves.length ≤ maxLeaves → t'.Balanced)
    (ha : a < es.length) (hvars : s.vars = (es.set a (.used r)).map Entry.var)
    (hx : Does (x s.heap) fun q => ∃ t, q.1 = addrOf t ∧ textOf t = u ∧ P t ∧
      Keeps M q.2 (nodesOf t ++ (es.set a (.used r)).flatMap Entry.nodes)) :
    Runs (· = .noMemory) (s.replace a x) fun q =>
      q.1 = .none ∧ Follows M last ((es.map Entry.text).set a (some u)) q.2 := by
  refine hx.bind ?_
  rintro ⟨_, h⟩ ⟨t, rfl, rfl, ht, hk⟩
  have hget : (es.set a (.rope t))[a]? = some (.rope t) := List.getElem?_set_self ha
  refine Runs.ok ⟨rfl, es.set a (.rope t), ⟨?_, ?_⟩, ?_, ?_⟩
  · rw [hvars, List.map_set, List.set_set, List.map_set]
    rfl
  · refine hk.perm ?_
    have hperm := flatMap_set (r := r) hget
    rw [List.set_set] at hperm
    exact hperm.symm
  · rw [List.map_set]
    rfl
  · intro b hb
    obtain ⟨rfl, hbal⟩ := hlast b hb
    exact ⟨t, hget, hbal t ht⟩

theorem query_runs {α : Type} {x : Proc α} {f : α → Answer} {v : Answer} {Q : α → Prop}
    {last : Option Op} (hlast : ∀ a, last ≠ some (.balance a)) (ht : Tracks M s [] es)
    (hx : Reads (· = .noMemory) x s.heap Q) (hQ : ∀ z, Q z → f z = v) :
    Runs (· = .noMemory) (s.query x f) fun q => q.1 = v ∧ Follows M last (es.map Entry.text) q.2 := by
  refine Runs.bind hx ?_
  rintro ⟨z, h⟩ ⟨hz, rfl⟩
  exact Runs.ok ⟨hQ z hz, es, ht, rfl, fun a ha => absurd ha (hlast a)⟩

theorem Tracks.lt_of_get (hu : Texts.get (es.map Entry.text) a = some u) : a < es.length := by
  rw [Texts.get, Option.join_eq_some_iff] at hu
  have hlt := (List.getElem?_eq_some_iff.1 hu).1
  rwa [List.length_map] at hlt

/-- One operation. -/
theorem run_follows {op : Op} {v : Answer} {ts : Texts} (hspec : op.spec (es.map Entry.text) = some (v, ts))
    (ht : Tracks M s [] es) :
    Runs (· = .noMemory) (op.run M s) fun q => q.1 = v ∧ Follows M (some op) ts q.2 := by
  cases op with
  | fromString str =>
    obtain ⟨rfl, rfl⟩ := Prod.mk.inj (Option.some.inj hspec)
    exact push_runs (fun _ h => Op.noConfusion (Option.some.inj h)) ht.vars
      (fromString_runs ht.keeps str)
  | concat a b =>
    obtain ⟨u, hu, hspec⟩ := Option.bind_eq_some_iff.1 hspec
    obtain ⟨w, hw, hspec⟩ := Option.map_eq_some_iff.1 hspec
    obtain ⟨rfl, rfl⟩ := Prod.mk.inj hspec
    obtain ⟨t, rfl, ha, ht₁, hes₁⟩ := ht.take hu
    rw [← hes₁] at hw ⊢
    obtain ⟨t', rfl, hb, ht₂, hes₂⟩ := ht₁.take hw
    rw [← hes₂, Op.run, ha]
    change Runs _ (s.rope b >>= _) _
    rw [hb]
    refine push_runs (fun _ h => Op.noConfusion (Option.some.inj h)) ht₂.vars (concat_runs ?_)
    refine ht₂.keeps.count fun q => ?_
    simp only [List.count_append, List.count_nil]
    omega
  | insert a i str =>
    obtain ⟨u, hu, hspec⟩ := Option.map_eq_some_iff.1 hspec
    obtain ⟨rfl, rfl⟩ := Prod.mk.inj hspec
    obtain ⟨t, rfl, ha, ht₁, hes₁⟩ := ht.take hu
    rw [List.append_nil] at ht₁
    rw [← hes₁, Op.run, ha]
    exact push_runs (fun _ h => Op.noConfusion (Option.some.inj h)) ht₁.vars (insert_runs ht₁.keeps _ _)
  | append a str =>
    obtain ⟨u, hu, hspec⟩ := Option.map_eq_some_iff.1 hspec
    obtain ⟨rfl, rfl⟩ := Prod.mk.inj hspec
    obtain ⟨t, rfl, ha, ht₁, hes₁⟩ := ht.take hu
    rw [List.append_nil] at ht₁
    rw [← hes₁, Op.run, ha]
    exact push_runs (fun _ h => Op.noConfusion (Option.some.inj h)) ht₁.vars (append_runs ht₁.keeps _)
  | deleteRange a i n =>
    obtain ⟨u, hu, hspec⟩ := Option.map_eq_some_iff.1 hspec
    obtain ⟨rfl, rfl⟩ := Prod.mk.inj hspec
    obtain ⟨t, rfl, ha, ht₁, hes₁⟩ := ht.take hu
    rw [List.append_nil] at ht₁
    rw [← hes₁, Op.run, ha]
    exact push_runs (fun _ h => Op.noConfusion (Option.some.inj h)) ht₁.vars
      (deleteRange_runs ht₁.keeps _ _)
  | balance a =>
    obtain ⟨u, hu, hspec⟩ := Option.map_eq_some_iff.1 hspec
    obtain ⟨rfl, rfl⟩ := Prod.mk.inj hspec
    obtain ⟨t, rfl, ha, ht₁, -⟩ := ht.take hu
    rw [List.append_nil] at ht₁
    rw [Op.run, ha]
    refine replace_runs (P := fun t => ∀ t' ∈ t, t'.leaves.length ≤ maxLeaves → t'.Balanced) ?_
      (Tracks.lt_of_get hu) ht₁.vars ?_
    · intro b hb
      obtain rfl : a = b := by injection Option.some.inj hb
      exact ⟨rfl, fun _ h => h⟩
    cases t with
    | none => exact Runs.ok ⟨none, rfl, rfl, fun _ h => absurd h (by simp), ht₁.keeps⟩
    | some t =>
      refine (balance_runs ht₁.keeps).mono ?_
      rintro q ⟨t', hq, hleaves, hbal, hk⟩
      refine ⟨some t', hq, ?_, ?_, hk⟩
      · rw [textOf_some, textOf_some, Tree.text, hleaves, Tree.text]
      · intro t'' ht'' hle
        obtain rfl : t' = t'' := Option.some.inj ht''
        exact hbal (hleaves ▸ hle)
  | free a =>
    obtain ⟨u, hu, hspec⟩ := Option.map_eq_some_iff.1 hspec
    obtain ⟨rfl, rfl⟩ := Prod.mk.inj hspec
    obtain ⟨t, rfl, ha, ht₁, -⟩ := ht.take hu
    rw [List.append_nil] at ht₁
    rw [Op.run, ha]
    refine replace_runs (P := fun _ => True) (fun _ h => Op.noConfusion (Option.some.inj h))
      (Tracks.lt_of_get hu) ht₁.vars ((free_runs ht₁.keeps).mono ?_)
    rintro q ⟨hq, hk⟩
    exact ⟨none, hq, rfl, trivial, hk⟩
  | length a =>
    obtain ⟨u, hu, hspec⟩ := Option.map_eq_some_iff.1 hspec
    obtain ⟨rfl, rfl⟩ := Prod.mk.inj hspec
    obtain ⟨t, rfl, ha, ht₁, -⟩ := ht.take hu
    rw [List.append_nil] at ht₁
    rw [Op.run, ha]
    exact query_runs (fun _ h => Op.noConfusion (Option.some.inj h)) ht ht₁.keeps.length_reads
      fun _ hz => congrArg Answer.number hz
  | charAt a i =>
    obtain ⟨u, hu, hspec⟩ := Option.map_eq_some_iff.1 hspec
    obtain ⟨rfl, rfl⟩ := Prod.mk.inj hspec
    obtain ⟨t, rfl, ha, ht₁, -⟩ := ht.take hu
    rw [List.append_nil] at ht₁
    rw [Op.run, ha]
    exact query_runs (fun _ h => Op.noConfusion (Option.some.inj h)) ht (ht₁.keeps.charAt_reads _)
      fun _ hz => congrArg Answer.char hz
  | sub a i n out =>
    obtain ⟨u, hu, hspec⟩ := Option.map_eq_some_iff.1 hspec
    obtain ⟨rfl, rfl⟩ := Prod.mk.inj hspec
    obtain ⟨t, rfl, ha, ht₁, -⟩ := ht.take hu
    rw [List.append_nil] at ht₁
    rw [Op.run, ha]
    exact query_runs (fun _ h => Op.noConfusion (Option.some.inj h)) ht
      (ht₁.keeps.sub_reads i.isLt _ out) fun _ hz => congrArg Answer.cells hz
  | toString a out =>
    obtain ⟨u, hu, hspec⟩ := Option.map_eq_some_iff.1 hspec
    obtain ⟨rfl, rfl⟩ := Prod.mk.inj hspec
    obtain ⟨t, rfl, ha, ht₁, -⟩ := ht.take hu
    rw [List.append_nil] at ht₁
    rw [Op.run, ha]
    exact query_runs (fun _ h => Op.noConfusion (Option.some.inj h)) ht (ht₁.keeps.toString_reads out)
      fun _ hz => congrArg Answer.cells hz

theorem execute_follows {ops : List Op} {answers : List Answer} {ts₀ ts : Texts} {last : Option Op}
    (hspec : specify ops ts₀ = some (answers, ts)) (hf : Follows M last ts₀ s) :
    Runs (· = .noMemory) (execute M ops s) fun q =>
      q.1 = answers ∧ Follows M (ops.getLast?.or last) ts q.2 := by
  induction ops generalizing s ts₀ answers last with
  | nil =>
    obtain ⟨rfl, rfl⟩ := Prod.mk.inj (Option.some.inj hspec)
    exact Runs.ok ⟨rfl, hf⟩
  | cons op ops ih =>
    obtain ⟨es, ht, rfl, -⟩ := hf
    obtain ⟨⟨v, ts₁⟩, hop, hspec⟩ := Option.bind_eq_some_iff.1 hspec
    obtain ⟨⟨answers', ts₂⟩, hops, hspec⟩ := Option.map_eq_some_iff.1 hspec
    obtain ⟨rfl, rfl⟩ := Prod.mk.inj hspec
    rw [execute]
    refine (run_follows hop ht).bind ?_
    rintro ⟨_, s₁⟩ ⟨rfl, hf₁⟩
    refine (ih hops hf₁).bind ?_
    rintro ⟨_, s₂⟩ ⟨rfl, hf₂⟩
    refine Runs.ok ⟨rfl, ?_⟩
    rw [List.getLast?_cons]
    cases hlast : ops.getLast? with
    | none => rwa [hlast] at hf₂
    | some op' => rwa [hlast] at hf₂

end tracks

/-! ## Every run -/

theorem Follows.start (M : Memory) : Follows M none [] ⟨[], []⟩ :=
  ⟨[], ⟨rfl, Owns.nil, Nat.zero_le _⟩, rfl, fun _ h => absurd h (by simp)⟩

/-- All is freed when there is no text left. -/
theorem Follows.inUse {M : Memory} {last : Option Op} {ts : Texts} {s : State} (hf : Follows M last ts s)
    (hts : ∀ x ∈ ts, x = none ∨ x = some []) : inUse s.heap = [] := by
  obtain ⟨es, ht, rfl, -⟩ := hf
  have hnone : es.flatMap Entry.nodes = [] := by
    refine List.flatMap_eq_nil_iff.2 fun e he => ?_
    cases e with
    | used r => rfl
    | rope t =>
      rcases hts _ (List.mem_map_of_mem he) with h | h
      · exact absurd h (Option.some_ne_none _)
      · obtain rfl := textOf_eq_nil.1 (Option.some.inj h)
        rfl
  have hlen := ht.keeps.owns.length_inUse
  rw [hnone] at hlen
  exact List.length_eq_zero_iff.1 hlen

/-- The ropes have the texts and the answers are right, whatever the operations. Each node is in one rope,
and no node is in use when no text is left. What stops the run is only that there is no memory. -/
theorem execute_refines (M : Memory) {ops : List Op} {answers : List Answer} {ts : Texts}
    (hspec : specify ops [] = some (answers, ts)) :
    Runs (· = .noMemory) (execute M ops ⟨[], []⟩) fun q => q.1 = answers ∧
      Follows M ops.getLast? ts q.2 ∧ ((∀ x ∈ ts, x = none ∨ x = some []) → inUse q.2.heap = []) := by
  refine (execute_follows hspec (Follows.start M)).mono ?_
  rintro q ⟨hq, hf⟩
  rw [Option.or_none] at hf
  exact ⟨hq, hf, hf.inUse⟩

/-- Room for as many nodes as there can be, and NULs in it. -/
def cleared : Memory where
  room := 2 ^ 57
  room_le := le_rfl
  node _ := ⟨true, 0, ⟨List.replicate leafMax nul, by decide, by decide⟩, none, none⟩
  size_data _ := List.length_replicate
  arr := List.replicate maxLeaves none
  length_arr := List.length_replicate

def letters (cs : List Char) (h : cs ≠ []) (hs : cs.length < 2 ^ 63) : Chars :=
  ⟨cs.map code, by simpa using h, by simpa using hs⟩

/-- `Insert`, `CharAt` and `Balance` of a rope, which is freed then. -/
def session : List Op :=
  [.fromString (letters ['a', 'c'] (by decide) (by decide)),
    .insert 0 1 (letters ['b'] (by decide) (by decide)), .charAt 1 1, .balance 1, .length 1, .free 1]

theorem execute_refines_session :
    Runs (· = .noMemory) (execute cleared session ⟨[], []⟩) fun q =>
      q.1 = [.none, .none, .char (code 'b'), .none, .number 3, .none] ∧ inUse q.2.heap = [] := by
  have hspec : specify session [] = some ([.none, .none, .char (code 'b'), .none, .number 3, .none],
      [none, some []]) := by decide
  exact (execute_refines cleared hspec).mono fun q hq => ⟨hq.1, hq.2.2 (by decide)⟩

end NewM2.TextRope
