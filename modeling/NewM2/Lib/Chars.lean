import Mathlib
import NewM2.Lib.Runs

/-!
# Arrays of characters

A CHAR is a UTF-16 code unit. An open ARRAY OF CHAR has at least one element and fits into the address
space. Nothing checks its indices: an access outside of it is the fault `outside`. The text in an array
ends at the first NUL or with the array. A CARDINAL is a number below `2 ^ 64`; a sum that may go beyond
is wrapped around by `wrap`. -/

namespace NewM2

/-- CHAR -/
abbrev Code := BitVec 16

/-- `0C` -/
def nul : Code := 0

/-- The character constant. -/
def code (c : Char) : Code := BitVec.ofNat 16 c.toNat

def wrap (n : Nat) : Nat := n % 2 ^ 64

theorem wrap_of_lt {n : Nat} (h : n < 2 ^ 64) : wrap n = n := Nat.mod_eq_of_lt h

theorem wrap_of_le {n : Nat} (h : 2 ^ 64 ≤ n) (h' : n < 2 ^ 64 + 2 ^ 64) : wrap n = n - 2 ^ 64 := by
  rw [wrap]
  omega

inductive Fault
  /-- An access outside of an open array. -/
  | outside
  /-- The index of an array with fixed bounds is outside of them. -/
  | indexException
deriving DecidableEq

/-- An ARRAY OF CHAR. -/
@[ext] structure Chars where
  cells : List Code
  nonempty : cells ≠ []
  small : cells.length < 2 ^ 63
deriving DecidableEq

namespace Chars

def size (s : Chars) : Nat := s.cells.length

/-- HIGH -/
def high (s : Chars) : Nat := s.size - 1

def get (s : Chars) (i : Nat) : Except Fault Code :=
  match s.cells[i]? with
  | some c => .ok c
  | none => .error .outside

def put (s : Chars) (i : Nat) (c : Code) : Except Fault Chars :=
  if i < s.size then
    .ok ⟨s.cells.set i c, by simpa [List.set_eq_nil_iff] using s.nonempty, by simpa using s.small⟩
  else .error .outside

/-- The text. -/
def text (s : Chars) : List Code := s.cells.takeWhile (· ≠ nul)

/-- The loop that looks for the first NUL. -/
def lengthOf : List Code → Nat
  | [] => 0
  | c :: cs => if c = nul then 0 else lengthOf cs + 1

def length (s : Chars) : Nat := lengthOf s.cells

variable {s d d' : Chars} {i j k m n p q : Nat} {c : Code} {v w : List Code} {allowed : Fault → Prop}

theorem size_pos (s : Chars) : 0 < s.size := List.length_pos_of_ne_nil s.nonempty

theorem size_lt (s : Chars) : s.size < 2 ^ 63 := s.small

theorem le_high_iff : i ≤ s.high ↔ i < s.size := by
  have h := s.size_pos
  rw [high]
  omega

theorem high_add_one (s : Chars) : s.high + 1 = s.size := by
  have h := s.size_pos
  rw [high]
  omega

theorem high_lt (s : Chars) : s.high < s.size := le_high_iff.1 le_rfl

theorem get_of_getElem? (h : s.cells[i]? = some c) : s.get i = .ok c := by rw [get, h]

theorem get_eq (h : i < s.size) : s.get i = .ok s.cells[i] :=
  get_of_getElem? (List.getElem?_eq_getElem h)

theorem get_outside (h : s.size ≤ i) : s.get i = .error .outside := by
  rw [get, List.getElem?_eq_none h]

theorem put_outside (h : s.size ≤ i) (c : Code) : s.put i c = .error .outside := by
  rw [put, if_neg (Nat.not_lt.2 h)]

theorem put_runs (h : i < s.size) (c : Code) :
    Runs allowed (s.put i c) fun s' => s'.cells = s.cells.set i c := by
  rw [put, if_pos h]
  exact Runs.ok rfl

/-! ## The text -/

theorem lengthOf_eq (cs : List Code) : lengthOf cs = (cs.takeWhile (· ≠ nul)).length := by
  induction cs with
  | nil => rfl
  | cons c cs ih =>
    rw [lengthOf, List.takeWhile_cons]
    by_cases h : c = nul
    · simp [h]
    · simp [h, ih]

theorem length_eq (s : Chars) : s.length = s.text.length := lengthOf_eq s.cells

theorem text_prefix_cells (s : Chars) : s.text <+: s.cells := List.takeWhile_prefix _

theorem length_le (s : Chars) : s.length ≤ s.size := by
  rw [length_eq]
  exact s.text_prefix_cells.length_le

theorem length_lt (s : Chars) : s.length < 2 ^ 63 := s.length_le.trans_lt s.size_lt

theorem nul_notMem_text (s : Chars) : nul ∉ s.text := by
  intro h
  simpa using List.mem_takeWhile_imp h

theorem getElem?_text (h : i < s.length) : s.text[i]? = s.cells[i]? := by
  rw [length_eq] at h
  obtain ⟨rest, hrest⟩ := s.text_prefix_cells
  rw [← hrest, List.getElem?_append_left h]

/-- A character of the text is read. -/
theorem get_text (h : i < s.length) : ∃ c, s.text[i]? = some c ∧ s.get i = .ok c := by
  have hi : i < s.size := h.trans_le s.length_le
  exact ⟨s.cells[i], (getElem?_text h).trans (List.getElem?_eq_getElem hi), get_eq hi⟩

/-- The NUL that ends the text. -/
theorem getElem?_length (h : s.length < s.size) : s.cells[s.length]? = some nul := by
  rw [length_eq] at h ⊢
  have hdrop : (s.cells.drop s.text.length) = s.cells.dropWhile (· ≠ nul) := by
    have happ := List.takeWhile_append_dropWhile (p := (· ≠ nul)) (l := s.cells)
    calc s.cells.drop s.text.length
        = (s.text ++ s.cells.dropWhile (· ≠ nul)).drop s.text.length := by rw [text, happ]
      _ = s.cells.dropWhile (· ≠ nul) := List.drop_left
  have hne : s.cells.dropWhile (· ≠ nul) ≠ [] := by
    rw [← hdrop]
    exact fun h' => absurd (List.drop_eq_nil_iff.1 h') (Nat.not_le.2 h)
  have hhead := List.head_dropWhile_not (· ≠ nul) hne
  have hzero : (s.cells.drop s.text.length)[0]? = some nul := by
    rw [hdrop, ← List.head?_eq_getElem?, List.head?_eq_some_head hne]
    simpa using hhead
  rwa [List.getElem?_drop, Nat.add_zero] at hzero

theorem text_of_append (h : s.cells = v ++ nul :: w) (hv : nul ∉ v) : s.text = v := by
  rw [text, h, List.takeWhile_append_of_pos (by
    intro c hc
    simpa using fun hnul : c = nul => hv (hnul ▸ hc))]
  simp

theorem text_of_full (hv : nul ∉ s.cells) : s.text = s.cells := by
  rw [text, List.takeWhile_eq_self_iff]
  intro c hc
  simpa using fun hnul : c = nul => hv (hnul ▸ hc)

/-! ## Where a loop over the characters stops -/

/-- The list ends, or goes on with something else. -/
def Stops (f : Code → Bool) (cs : List Code) : Prop := ∀ c ∈ cs.head?, f c = false

instance (f : Code → Bool) (cs : List Code) : Decidable (Stops f cs) :=
  inferInstanceAs (Decidable (∀ c ∈ cs.head?, f c = false))

theorem stops_cons {f : Code → Bool} {cs : List Code} : Stops f (c :: cs) ↔ f c = false := by simp [Stops]

theorem stops_dropWhile (f : Code → Bool) (cs : List Code) : Stops f (cs.dropWhile f) := by
  intro c hc
  have h := List.head?_dropWhile_not f cs
  rw [Option.mem_def.1 hc] at h
  exact h

theorem dropWhile_append {f : Code → Bool} (hv : ∀ c ∈ v, f c) (hw : Stops f w) :
    (v ++ w).dropWhile f = w := by
  rw [List.dropWhile_append_of_pos hv]
  cases w with
  | nil => rfl
  | cons c w => rw [List.dropWhile_cons_of_neg (by simp [stops_cons.1 hw])]

theorem takeWhile_append {f : Code → Bool} (hv : ∀ c ∈ v, f c) (hw : Stops f w) :
    (v ++ w).takeWhile f = v := by
  rw [List.takeWhile_append_of_pos hv]
  cases w with
  | nil => simp
  | cons c w => rw [List.takeWhile_cons_of_neg (by simp [stops_cons.1 hw]), List.append_nil]

/-- The text, and what is behind it. -/
theorem exists_rest (s : Chars) : ∃ rest, s.cells = s.text ++ rest ∧ Stops (· ≠ nul) rest :=
  ⟨s.cells.dropWhile (· ≠ nul), List.takeWhile_append_dropWhile.symm, stops_dropWhile _ _⟩

theorem text_of_rest (h : s.cells = v ++ w) (hv : nul ∉ v) (hw : Stops (· ≠ nul) w) : s.text = v := by
  rw [text, h]
  exact takeWhile_append (fun c hc => by simpa using fun hnul : c = nul => hv (hnul ▸ hc)) hw

/-! ## Copying -/

/-- `WHILE (k < n) AND more DO d[p + k] := s[q + k]; INC(k) END`: the last `k`, and `d`. -/
def copyLoop (s : Chars) (q p n : Nat) (more : Nat → Bool) (k : Nat) (d : Chars) :
    Except Fault (Nat × Chars) :=
  if k < n ∧ more k then do
    let c ← s.get (wrap (q + k))
    let d ← d.put (wrap (p + k)) c
    copyLoop s q p n more (k + 1) d
  else .ok (k, d)
termination_by n - k

/-- `d'` is `d` but for `n` cells from `p` on, which are those of `cs` from `q` on. -/
structure Copied (cs : List Code) (q p n : Nat) (d d' : Chars) : Prop where
  size : d'.size = d.size
  cells : ∀ j, d'.cells[j]? = if p ≤ j ∧ j < p + n then cs[q + (j - p)]? else d.cells[j]?

theorem Copied.refl (cs : List Code) (q p : Nat) (d : Chars) : Copied cs q p 0 d d :=
  ⟨rfl, fun j => by rw [if_neg (by omega)]⟩

theorem Copied.step {cs : List Code} (h : Copied cs (q + 1) (p + 1) n d' d) {d₀ : Chars}
    (hd' : d'.cells = d₀.cells.set p c) (hp : p < d₀.size) (hc : cs[q]? = some c) :
    Copied cs q p (n + 1) d₀ d := by
  have hsize : d'.size = d₀.size := by rw [Chars.size, hd', List.length_set, Chars.size]
  refine ⟨h.size.trans hsize, fun j => ?_⟩
  rw [h.cells j, hd']
  rcases Nat.lt_trichotomy j p with hj | rfl | hj
  · rw [if_neg (by omega), if_neg (by omega), List.getElem?_set_ne (by omega)]
  · rw [if_neg (by omega), if_pos (by omega), List.getElem?_set_self hp, Nat.sub_self, Nat.add_zero, hc]
  · by_cases hn : j < p + (n + 1)
    · rw [if_pos (by omega), if_pos (by omega), show q + 1 + (j - (p + 1)) = q + (j - p) by omega]
    · rw [if_neg (by omega), if_neg (by omega), List.getElem?_set_ne (by omega)]

theorem Copied.take {cs : List Code} (h : Copied cs q p n d d') (hp : p + n ≤ d.size) :
    d'.cells.take (p + n) = d.cells.take p ++ (cs.drop q).take n := by
  have hd : d.cells.length = d.size := rfl
  refine List.ext_getElem? fun j => ?_
  rw [List.getElem?_take, List.getElem?_append, List.length_take, hd, Nat.min_eq_left (by omega),
    h.cells j]
  rcases Nat.lt_or_ge j p with hj | hj
  · rw [if_pos (by omega), if_neg (by omega), if_pos hj, List.getElem?_take_of_lt hj]
  · by_cases hn : j < p + n
    · rw [if_pos hn, if_pos ⟨hj, hn⟩, if_neg (Nat.not_lt.2 hj), List.getElem?_take_of_lt (by omega),
        List.getElem?_drop]
    · rw [if_neg hn, if_neg (Nat.not_lt.2 hj), List.getElem?_eq_none]
      rw [List.length_take]
      omega

/-- Of the `r` rounds, `m` are left. -/
theorem copyLoop_runs_from {s : Chars} {r : Nat} {more : Nat → Bool} (m : Nat) (hr : r ≤ n)
    (hgo : ∀ k, k < r → more k = true) (hstop : r < n → more r = false) (hk : k + m = r)
    (hs : r = 0 ∨ q + r ≤ s.size) (hd : r = 0 ∨ p + r ≤ d.size) :
    Runs allowed (copyLoop s q p n more k d) fun x =>
      x.1 = r ∧ Copied s.cells (q + k) (p + k) m d x.2 := by
  have hslt := s.size_lt
  have hdlt := d.size_lt
  induction m generalizing k d with
  | zero =>
    have hend : ¬ (k < n ∧ more k = true) := by
      rintro ⟨hn, hm⟩
      rw [show k = r by omega] at hm hn
      rw [hstop hn] at hm
      exact absurd hm Bool.false_ne_true
    rw [copyLoop, if_neg hend]
    exact Runs.ok ⟨by omega, Copied.refl _ _ _ _⟩
  | succ m ih =>
    rw [copyLoop, if_pos ⟨by omega, hgo k (by omega)⟩, wrap_of_lt (by omega), wrap_of_lt (by omega),
      get_eq (by omega)]
    refine (put_runs (by omega) _).bind fun d' hd' => ?_
    have hsize : d'.size = d.size := by rw [Chars.size, hd', List.length_set, Chars.size]
    refine (ih (k := k + 1) (d := d') (by omega) (by omega) (by omega)).mono ?_
    rintro ⟨k', e⟩ ⟨hk', hcopied⟩
    have hrest : Copied s.cells (q + k + 1) (p + k + 1) m d' e := hcopied
    exact ⟨hk', hrest.step hd' (by omega) (List.getElem?_eq_getElem (by rw [← Chars.size]; omega))⟩

/-- The loop makes `r` rounds: it goes on before the `r`-th, and stops there. -/
theorem copyLoop_runs {s : Chars} {r : Nat} {more : Nat → Bool} (hr : r ≤ n)
    (hgo : ∀ k, k < r → more k = true) (hstop : r < n → more r = false)
    (hs : r = 0 ∨ q + r ≤ s.size) (hd : r = 0 ∨ p + r ≤ d.size) :
    Runs allowed (copyLoop s q p n more 0 d) fun x => x.1 = r ∧ Copied s.cells q p r d x.2 :=
  copyLoop_runs_from r hr hgo hstop (Nat.zero_add r) hs hd

/-! ## Assigning a string value -/

/-- The array has the value `v` in it, truncated to its capacity, and a NUL behind it if there is room. -/
structure Assigned (v : List Code) (d d' : Chars) : Prop where
  size : d'.size = d.size
  value : (v ++ [nul]).take d.size <+: d'.cells

/-- `IF i <= HIGH(d) THEN d[i] := 0C END` -/
def terminate (i : Nat) (d : Chars) : Except Fault Chars :=
  if i ≤ d.high then d.put i nul else .ok d

theorem Assigned.of_getElem? (hsize : d'.size = d.size)
    (h : ∀ j, j < d.size → j ≤ v.length → d'.cells[j]? = (v ++ [nul])[j]?) : Assigned v d d' := by
  refine ⟨hsize, List.prefix_iff_getElem?.2 fun j hj => ?_⟩
  rw [List.length_take, List.length_append, List.length_singleton] at hj
  rw [h j (by omega) (by omega), List.getElem_take, List.getElem?_eq_getElem]

/-- An array has its own text. -/
theorem assigned_text (s : Chars) : Assigned s.text s s := by
  refine Assigned.of_getElem? rfl fun j hj hlen => ?_
  rw [← length_eq] at hlen
  rcases Nat.lt_or_eq_of_le hlen with h | rfl
  · rw [List.getElem?_append_left (by rwa [← length_eq]), getElem?_text h]
  · rw [getElem?_length hj, length_eq, List.getElem?_concat_length]

theorem terminate_eq (i : Nat) (d : Chars) :
    terminate i d = if i < d.size then d.put i nul else .ok d := by
  simp only [terminate, le_high_iff]

/-- The value is in the array already, but for the NUL. -/
theorem terminate_runs (hsize : d'.size = d.size) (hi : min i d.size = min v.length d.size)
    (h : ∀ j, j < d.size → j < v.length → d'.cells[j]? = v[j]?) :
    Runs allowed (terminate i d') (Assigned v d) := by
  rw [terminate_eq, hsize]
  split_ifs with hroom
  · have hlen : i = v.length := by omega
    refine (put_runs (by omega) nul).mono fun e he => ?_
    refine Assigned.of_getElem? (by rw [Chars.size, he, List.length_set, ← Chars.size, hsize]) ?_
    intro j hd hj
    rw [he]
    rcases Nat.lt_or_eq_of_le hj with hj | rfl
    · rw [List.getElem?_set_ne (by omega), h j hd hj, List.getElem?_append_left hj]
    · rw [hlen, List.getElem?_set_self (by rw [← Chars.size]; omega), List.getElem?_concat_length]
  · refine Runs.ok (Assigned.of_getElem? hsize fun j hj _ => ?_)
    rw [h j hj (by omega), List.getElem?_append_left (by omega)]

/-- The cells before the index are as they were. -/
theorem terminate_keeps (i : Nat) (d : Chars) :
    Runs (fun _ => True) (terminate i d) fun e => ∀ j, j < i → e.cells[j]? = d.cells[j]? := by
  rw [terminate_eq]
  split_ifs with h
  · refine (put_runs h nul).mono fun e he j hj => ?_
    rw [he, List.getElem?_set_ne (by omega)]
  · exact Runs.ok fun _ _ => rfl

/-- The text of the array is the value, truncated to the capacity. -/
theorem Assigned.text (h : Assigned v d d') (hv : nul ∉ v) : d'.text = v.take d.size := by
  obtain ⟨rest, hrest⟩ := h.value
  by_cases hroom : v.length < d.size
  · rw [List.take_of_length_le (by simp; omega), List.append_assoc] at hrest
    rw [List.take_of_length_le hroom.le]
    exact text_of_append hrest.symm hv
  · rw [List.take_append_of_le_length (by omega)] at hrest
    have hlen : d'.cells.length = d.size := h.size
    obtain rfl : rest = [] := by
      have := congrArg List.length hrest
      rw [List.length_append, List.length_take, hlen] at this
      exact List.length_eq_zero_iff.1 (by omega)
    rw [List.append_nil] at hrest
    rw [hrest]
    exact text_of_full (hrest ▸ fun hmem => hv (List.mem_of_mem_take hmem))

end Chars
end NewM2
