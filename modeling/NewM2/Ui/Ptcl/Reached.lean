import Mathlib
import NewM2.Ui.Ptcl.Arguments

/-!
# What the evaluator promises

The host calls the module any number of times, and each call may end in an error. `Consistent` is what holds of an
evaluation, of a builtin and of a call of a procedure from a valid state on, at any nesting. -/

namespace NewM2.Ui.Ptcl

variable {σ : Type}

/-- The state behind the initialisation of the module. -/
def start (host : σ) : State σ := ⟨[], [], [], [], [], [], false, 0, host, 0⟩

/-- The states between the calls of the host. -/
inductive Reached (fresh : List Code) : State σ → Prop
  | start (host : σ) : Reached fresh (start host)
  | call {s : State σ} {r : Bool × State σ} (c : Host σ) :
      Reached fresh s → c.run (evalRange fresh (depthMax + 1)) s = .ok r → Reached fresh r.2

structure Consistent (fresh : List Code) (n : Nat) (s : State σ) : Prop where
  eval : ∀ high cs, Runs overflows (evalRange fresh n high cs s) fun r => r.1.2.length ≤ high ∧ Leads s r.2
  host : ∀ c : Host σ, Runs overflows (c.run (evalRange fresh n) s) fun r => Leads s r.2
  /-- The words that are collected stay. -/
  words : ∀ cs words, words.length ≤ maxArgs → (∀ w ∈ words, w.length ≤ argMax) →
    Runs overflows (readWords (evalRange fresh n) (cs.length + 1) cs words s) fun r => words <+: r.1.2.1
  /-- The arguments that a nested evaluation leaves do not matter to a builtin or a procedure. -/
  args : ∀ change, s.command ∈ builtins ∨ (lookup s.command s.procs).isSome →
    Alike (dispatch fresh (evalRange fresh n) s) (dispatch fresh (changing change (evalRange fresh n)) s)
  call : ∀ name p, lookup name s.procs = some p → Runs overflows (callProc (evalRange fresh n) p s) fun r =>
    ∀ x ∈ paramNames maxParams (textOf p.parm), Restored x s r.2

variable {fresh : List Code} {n : Nat} {s : State σ}

theorem consistent_of_valid (hs : Valid s) (hd : s.depth ≤ depthMax) (hn : depthMax < s.depth + n) :
    Consistent fresh n s := by
  have hself : SelfDoes s.depth (evalRange fresh n : Nat → List Code → Script σ (Bool × List Code)) :=
    evalRange_does fresh n hd hn
  have hagree := evalRange_agree (σ := σ) fresh n
  refine ⟨fun high cs => hself high cs s hs rfl, fun c => ?_, fun cs words hcount heach => ?_, fun change hname => ?_,
    fun name p hp => ?_⟩
  · exact (run_does hself c s hs rfl).mono fun r hr => hr.2
  · exact (readWords_does hself _ cs words (Nat.lt_succ_self _) hcount heach s hs rfl).mono fun r hr => hr.1.kept
  · exact dispatch_alike (changing_agrees hagree change) fresh hname
  · exact (callProc_restores hself (hs.proc _ (mem_of_lookup hp)).1 hs rfl).mono fun r hr => hr.2

theorem valid_start (host : σ) : Valid (start host) where
  vars := Nat.zero_le _
  var := by simp [start]
  cmds := Nat.zero_le _
  procs := Nat.zero_le _
  proc := by simp [start]
  args := Nat.zero_le _
  arg := by simp [start]
  result := Nat.zero_le _
  errMsg := Nat.zero_le _

theorem reached_valid (h : Reached fresh s) : Valid s ∧ s.depth = 0 := by
  induction h with
  | start host => exact ⟨valid_start host, rfl⟩
  | @call s r c _ hrun ih =>
    have hdepth : s.depth ≤ depthMax := by rw [ih.2]; exact Nat.zero_le _
    have hcons : Consistent fresh (depthMax + 1) s := consistent_of_valid ih.1 hdepth (by omega)
    have hrest := hcons.host c
    rw [hrun] at hrest
    exact ⟨hrest.valid, hrest.depth.trans ih.2⟩

/-- The states between the calls are valid and not nested; from a valid state on, the evaluator is consistent. -/
theorem eval_consistent (σ : Type) (fresh : List Code) :
    (∀ s : State σ, Reached fresh s → Valid s ∧ s.depth = 0) ∧
      ∀ (n : Nat) (s : State σ), Valid s → s.depth ≤ depthMax → depthMax < s.depth + n → Consistent fresh n s :=
  ⟨fun _ hs => reached_valid hs, fun _ _ hs hd hn => consistent_of_valid hs hd hn⟩

/-- A command of the host that empties the table and fills it with other variables. -/
def refill : Host Unit :=
  .reset ((List.range maxVars).foldr (fun i k => .setVar [BitVec.ofNat 16 (i + 128)] [] k) (.done true))

/-- The host registers `refill` as `h` and has the script evaluated. -/
def prepare (script : List Char) : Host Unit :=
  .register (word ['h']) refill (.eval (word script) valMax fun ok _ => .done ok)

/-- The values of `x` before and behind a command, with the script before it. -/
def around (script command : List Char) : Option (Option (List Code) × Option (List Code)) :=
  match (prepare script).run (evalRange [] (depthMax + 1)) (start ()) with
  | .ok r =>
    match eval [] valMax (word command) r.2 with
    | .ok r' => some (lookup (word ['x']) r.2.vars, lookup (word ['x']) r'.2.vars)
    | .error _ => none
  | .error _ => none

/-- `set x 0;proc f {x} {set x 1};f 2` -/
def callScript : List Char :=
  ['s', 'e', 't', ' ', 'x', ' ', '0', ';', 'p', 'r', 'o', 'c', ' ', 'f', ' ', '\x7b', 'x', '\x7d', ' ',
    '\x7b', 's', 'e', 't', ' ', 'x', ' ', '1', '\x7d', ';', 'f', ' ', '2']

/-- The state behind a script. -/
def prepared (script : List Char) : Option (State Unit) :=
  match (prepare script).run (evalRange [] (depthMax + 1)) (start ()) with
  | .ok r => some r.2
  | .error _ => none

theorem reached_of_prepared {script : List Char} {s : State Unit} (h : prepared script = some s) : Reached [] s := by
  rw [prepared] at h
  rcases hres : (prepare script).run (evalRange [] (depthMax + 1)) (start ()) with e | r
  · rw [hres] at h
    cases h
  · simp only [hres, Option.some.injEq] at h
    exact h ▸ .call (prepare script) (.start ()) hres

/-- The state has a variable, a command of the host and a procedure, and the arguments of the last command
that ran are still there. -/
theorem eval_consistent_script : ∃ s : State Unit, Reached [] s ∧ s.args.length = 3 ∧
    lookup (word ['x']) s.vars = some (word ['0']) ∧ (lookup (word ['h']) s.cmds).isSome ∧
    (lookup (word ['f']) s.procs).isSome ∧ Consistent [] (depthMax + 1) s := by
  have hrun : (prepared callScript).map (fun s => (s.args.length, lookup (word ['x']) s.vars,
      (lookup (word ['h']) s.cmds).isSome, (lookup (word ['f']) s.procs).isSome)) =
        some (3, some (word ['0']), true, true) := by
    decide +kernel
  obtain ⟨s, hs, heq⟩ := Option.map_eq_some_iff.1 hrun
  simp only [Prod.mk.injEq] at heq
  obtain ⟨hargs, hvar, hcmd, hproc⟩ := heq
  have hreached := reached_of_prepared hs
  obtain ⟨hvalid, hdepth⟩ := (eval_consistent Unit []).1 s hreached
  refine ⟨s, hreached, hargs, hvar, hcmd, hproc, ?_⟩
  exact (eval_consistent Unit []).2 _ s hvalid (hdepth ▸ Nat.zero_le _) (by rw [hdepth]; decide)

theorem reached_of_around {script command : List Char} {v v' : Option (List Code)}
    (h : around script command = some (v, v')) :
    ∃ (s : State Unit) (r : (Bool × List Code) × State Unit), Reached [] s ∧ eval [] valMax (word command) s = .ok r ∧
      lookup (word ['x']) s.vars = v ∧ lookup (word ['x']) r.2.vars = v' := by
  rw [around] at h
  rcases hprepare : (prepare script).run (evalRange [] (depthMax + 1)) (start ()) with e | r
  · rw [hprepare] at h
    cases h
  rcases hcall : eval [] valMax (word command) r.2 with e | r'
  · simp only [hprepare, hcall] at h
    cases h
  · simp only [hprepare, hcall, Option.some.injEq, Prod.mk.injEq] at h
    exact ⟨r.2, r', .call (prepare script) (.start ()) hprepare, hcall, h.1, h.2⟩

/-- A parameter without a value has the empty one behind the call, the seventh is not restored, and one that `Reset`
removes has no place when the table is full again. -/
theorem call_changes :
    (∃ (s : State Unit) (r : (Bool × List Code) × State Unit), Reached [] s ∧
      eval [] valMax (word ['f', ' ', '1']) s = .ok r ∧
        lookup (word ['x']) s.vars = none ∧ lookup (word ['x']) r.2.vars = some []) ∧
    (∃ (s : State Unit) (r : (Bool × List Code) × State Unit), Reached [] s ∧
      eval [] valMax (word ['f']) s = .ok r ∧
        lookup (word ['x']) s.vars = some (word ['0']) ∧ lookup (word ['x']) r.2.vars = some (word ['1'])) ∧
    (∃ (s : State Unit) (r : (Bool × List Code) × State Unit), Reached [] s ∧
      eval [] valMax (word ['f']) s = .ok r ∧
        lookup (word ['x']) s.vars = some (word ['0']) ∧ lookup (word ['x']) r.2.vars = none) := by
  refine ⟨?_, ?_, ?_⟩
  · let script := ['p', 'r', 'o', 'c', ' ', 'f', ' ', '\x7b', 'x', '\x7d', ' ', '\x7b', '\x7d']
    exact reached_of_around (show around script _ = _ by decide +kernel)
  · let script := ['s', 'e', 't', ' ', 'x', ' ', '0', ';', 'p', 'r', 'o', 'c', ' ', 'f', ' ',
      '\x7b', 'a', ' ', 'b', ' ', 'c', ' ', 'd', ' ', 'e', ' ', 'g', ' ', 'x', '\x7d', ' ',
      '\x7b', 's', 'e', 't', ' ', 'x', ' ', '1', '\x7d']
    exact reached_of_around (show around script _ = _ by decide +kernel)
  · let script := ['s', 'e', 't', ' ', 'x', ' ', '0', ';', 'p', 'r', 'o', 'c', ' ', 'f', ' ',
      '\x7b', 'x', '\x7d', ' ', '\x7b', 'h', '\x7d']
    exact reached_of_around (show around script _ = _ by decide +kernel)

end NewM2.Ui.Ptcl
