import Mathlib.Data.List.Basic

/-! # Tables of named entries with overriding

An override table lists names with their current provider, in the order in which they first appeared.
A level of an inheritance chain extends the table it inherits: an overriding declaration takes over
the first entry of its name, any other declaration is appended. Extending keeps the names that are
there at their places (`names_prefix_extend`), so a place found in an inherited table stays good, and
`lookup_extend` says who provides a name afterwards. Where the declarations of a level have providers of
their own (`declareAll`), the first entry of a name gets the one of the last override
(`getElem?_declareAll`). -/

namespace NewM2

/-- Apply `f` to the first element that satisfies `p`; `none` if there is none. -/
def updateFirst {α : Type*} (p : α → Bool) (f : α → α) : List α → Option (List α)
  | [] => none
  | x :: xs => if p x then some (f x :: xs) else (updateFirst p f xs).map (x :: ·)

section updateFirst
variable {α β : Type*} {p : α → Bool} {f : α → α} {l l' : List α}

theorem updateFirst_eq_none_iff : updateFirst p f l = none ↔ ∀ x ∈ l, p x = false := by
  induction l with
  | nil => simp [updateFirst]
  | cons x xs ih =>
    by_cases hx : p x
    · simp [updateFirst, hx]
    · simp [updateFirst, hx, ih]

/-- An update that keeps `g` keeps the list of `g`s. -/
theorem map_updateFirst (g : α → β) (hg : ∀ x, g (f x) = g x) (h : updateFirst p f l = some l') :
    l'.map g = l.map g := by
  induction l generalizing l' with
  | nil => simp [updateFirst] at h
  | cons x xs ih =>
    simp only [updateFirst] at h
    split at h
    · cases h; simp [hg]
    · obtain ⟨ys, hys, rfl⟩ := Option.map_eq_some_iff.1 h
      simp [ih hys]

/-- The update commutes with a map that carries `p` and `f` along. -/
theorem updateFirst_map {q : β → Bool} {k : β → β} (g : α → β) (hp : ∀ x, q (g x) = p x)
    (hf : ∀ x, g (f x) = k (g x)) :
    updateFirst q k (l.map g) = (updateFirst p f l).map (List.map g) := by
  induction l with
  | nil => rfl
  | cons x xs ih =>
    by_cases hx : p x
    · simp [updateFirst, hp, hx, hf]
    · simp [updateFirst, hp, hx, ih, Function.comp_def]

end updateFirst

/-- The names of a table with their providers, in order. -/
abbrev OverrideTable (ν κ : Type*) := List (ν × κ)

namespace OverrideTable
variable {ν κ : Type*} [DecidableEq ν] {t t' : OverrideTable ν κ} {k : κ} {n n' : ν}

def names (t : OverrideTable ν κ) : List ν := t.map Prod.fst

/-- One declaration by provider `k`: an override takes over the first entry of its name, everything
else (an override that finds no entry included) is appended. -/
def declare (k : κ) (t : OverrideTable ν κ) (d : ν × Bool) : OverrideTable ν κ :=
  match if d.2 then updateFirst (·.1 == d.1) (fun e => (e.1, k)) t else none with
  | some t' => t'
  | none => t ++ [(d.1, k)]

/-- All declarations of one level, in order. -/
def extend (k : κ) (t : OverrideTable ν κ) (ds : List (ν × Bool)) : OverrideTable ν κ :=
  ds.foldl (declare k) t

@[simp] theorem extend_nil : extend k t [] = t := rfl

@[simp] theorem extend_cons (d : ν × Bool) (ds : List (ν × Bool)) :
    extend k t (d :: ds) = extend k (declare k t d) ds := rfl

theorem names_prefix_declare (k : κ) (t : OverrideTable ν κ) (d : ν × Bool) :
    names t <+: names (declare k t d) := by
  unfold declare
  split
  · next t' h =>
    split at h
    · have hmap : t'.map Prod.fst = t.map Prod.fst :=
        map_updateFirst (f := fun e => (e.1, k)) Prod.fst (fun _ => rfl) h
      exact ⟨[], by simp [names, hmap]⟩
    · cases h
  · exact ⟨[d.1], by simp [names]⟩

/-- Extending keeps every name at its place. -/
theorem names_prefix_extend (k : κ) (t : OverrideTable ν κ) (ds : List (ν × Bool)) :
    names t <+: names (extend k t ds) := by
  induction ds generalizing t with
  | nil => exact List.prefix_rfl
  | cons d ds ih => exact (names_prefix_declare k t d).trans (ih _)

theorem lookup_cons_eq (e : ν × κ) (t : OverrideTable ν κ) (n : ν) :
    List.lookup n (e :: t) = if n = e.1 then some e.2 else List.lookup n t := by
  obtain ⟨m, j⟩ := e
  by_cases hn : n = m
  · simp [hn]
  · have hn' : (n == m) = false := by simpa using hn
    simp [List.lookup_cons, hn, hn']

theorem lookup_eq_none_iff : t.lookup n = none ↔ n ∉ names t := by
  induction t with
  | nil => simp [names]
  | cons e t ih =>
    rw [lookup_cons_eq]
    by_cases hn : n = e.1
    · simp [names, hn]
    · simp [hn, ih, names]

theorem lookup_updateFirst (h : updateFirst (·.1 == n) (fun e => (e.1, k)) t = some t') :
    t'.lookup n' = if n' = n then some k else t.lookup n' := by
  induction t generalizing t' with
  | nil => simp [updateFirst] at h
  | cons e t ih =>
    obtain ⟨m, j⟩ := e
    simp only [updateFirst] at h
    split at h
    · next hm =>
      cases h
      have hm : m = n := by simpa using hm
      subst hm
      simp only [lookup_cons_eq]
      split <;> rfl
    · next hm =>
      obtain ⟨ys, hys, rfl⟩ := Option.map_eq_some_iff.1 h
      have hm : m ≠ n := by simpa using hm
      simp only [lookup_cons_eq, ih hys]
      by_cases hn : n' = m
      · simp [hn, hm]
      · simp [hn]

/-- Who provides a name after one declaration. -/
theorem lookup_declare (k : κ) (t : OverrideTable ν κ) (n : ν) (ov : Bool) (n' : ν) :
    (declare k t (n, ov)).lookup n' =
      if n' = n ∧ (ov = true ∨ t.lookup n = none) then some k else t.lookup n' := by
  have append : (t ++ [(n, k)]).lookup n' =
      if n' = n ∧ t.lookup n = none then some k else t.lookup n' := by
    rw [List.lookup_append, lookup_cons_eq]
    by_cases hn : n' = n
    · subst hn
      cases ht : t.lookup n' <;> simp
    · simp [hn]
  unfold declare
  cases ov with
  | false => simpa only [Bool.false_eq_true, if_false, false_or] using append
  | true =>
    cases hu : updateFirst (·.1 == n) (fun e => (e.1, k)) t with
    | some t' =>
      have hl : t'.lookup n' = _ := lookup_updateFirst hu
      simpa [hu] using hl
    | none =>
      have hnone : t.lookup n = none := by
        rw [updateFirst_eq_none_iff] at hu
        rw [lookup_eq_none_iff]
        simp only [names, List.mem_map, not_exists, not_and]
        intro e he hen
        simpa [hen] using hu e he
      simpa [hu, hnone] using append

/-- Who provides a name after a whole level: the level itself exactly when it declares the name and
either overrides it or finds no entry of that name. -/
theorem lookup_extend (k : κ) (t : OverrideTable ν κ) (ds : List (ν × Bool)) (n : ν) :
    (extend k t ds).lookup n =
      if n ∈ ds.map Prod.fst ∧ ((n, true) ∈ ds ∨ t.lookup n = none) then some k
      else t.lookup n := by
  induction ds generalizing t with
  | nil => simp
  | cons d ds ih =>
    obtain ⟨m, ov⟩ := d
    rw [extend_cons, ih, lookup_declare]
    by_cases hm : n = m
    · subst hm
      by_cases hov : ov = true
      · subst hov
        by_cases hd : n ∈ ds.map Prod.fst ∧ (n, true) ∈ ds
        · simp [hd.1, hd.2]
        · simp
      · have hov : ov = false := by simpa using hov
        subst hov
        cases ht : t.lookup n with
        | none => simp
        | some j =>
          by_cases hd : (n, true) ∈ ds
          · have : n ∈ ds.map Prod.fst := List.mem_map.2 ⟨_, hd, rfl⟩
            simp [hd, this]
          · simp [hd]
    · have hmem : (n, true) ∈ (m, ov) :: ds ↔ (n, true) ∈ ds := by simp [hm]
      have hnames : n ∈ List.map Prod.fst ((m, ov) :: ds) ↔ n ∈ ds.map Prod.fst := by simp [hm]
      simp only [hm, false_and, if_false, hmem, hnames]

/-- A place found by name in a table is the place of that name in every table that keeps its names. -/
theorem findIdx?_of_prefix (h : names t <+: names t') {i : Nat}
    (hi : t.findIdx? (·.1 == n) = some i) : t'.findIdx? (·.1 == n) = some i := by
  have key : ∀ u : OverrideTable ν κ, u.findIdx? (·.1 == n) = (names u).findIdx? (· == n) := by
    intro u; simp [names, List.findIdx?_map, Function.comp_def]
  rw [key] at hi ⊢
  obtain ⟨r, hr⟩ := h
  rw [← hr, List.findIdx?_append, hi]
  rfl

/-- The entry at the place found by name is the one `lookup` returns. -/
theorem getElem?_of_findIdx? {i : Nat} (hi : t.findIdx? (·.1 == n) = some i) :
    (t[i]?).map Prod.snd = t.lookup n := by
  induction t generalizing i with
  | nil => simp at hi
  | cons e t ih =>
    obtain ⟨m, j⟩ := e
    rw [List.findIdx?_cons] at hi
    by_cases hm : m = n
    · simp only [hm, BEq.rfl, if_true, Option.some.injEq] at hi
      subst hi
      simp [hm]
    · have hm' : (m == n) = false := by simpa using hm
      simp only [hm', Bool.false_eq_true, if_false, Option.map_eq_some_iff] at hi
      obtain ⟨i', hi', rfl⟩ := hi
      have hn : n ≠ m := fun h => hm h.symm
      simp [ih hi', lookup_cons_eq, hn]

/-! ## Declarations with their own providers -/

/-- Declarations in order: the name, whether it overrides, and the provider. -/
def declareAll (t : OverrideTable ν κ) (ds : List (ν × Bool × κ)) : OverrideTable ν κ :=
  ds.foldl (fun t d => declare d.2.2 t (d.1, d.2.1)) t

@[simp] theorem declareAll_nil : declareAll t [] = t := rfl

@[simp] theorem declareAll_cons (d : ν × Bool × κ) (ds : List (ν × Bool × κ)) :
    declareAll t (d :: ds) = declareAll (declare d.2.2 t (d.1, d.2.1)) ds := rfl

/-- The provider of the last overriding declaration of `n`. -/
def lastOverride (n : ν) : List (ν × Bool × κ) → Option κ
  | [] => none
  | d :: ds => (lastOverride n ds).or (if d.1 = n ∧ d.2.1 = true then some d.2.2 else none)

theorem exists_of_lastOverride {ds : List (ν × Bool × κ)} (h : lastOverride n ds = some k) :
    (n, true, k) ∈ ds := by
  induction ds with
  | nil => cases h
  | cons d ds ih =>
    rw [lastOverride, Option.or_eq_some_iff] at h
    rcases h with h | ⟨-, h⟩
    · exact List.mem_cons_of_mem _ (ih h)
    · split at h
      · next hd =>
        obtain ⟨m, ov, k'⟩ := d
        cases h
        rw [← hd.1, ← hd.2]
        exact List.mem_cons_self ..
      · cases h

/-- A name that is there is provided by its last override, or as before. -/
theorem lookup_declareAll_of_some {ds : List (ν × Bool × κ)} (h : t.lookup n = some k) :
    (declareAll t ds).lookup n = some ((lastOverride n ds).getD k) := by
  induction ds generalizing t k with
  | nil => exact h
  | cons d ds ih =>
    have hd := lookup_declare d.2.2 t d.1 d.2.1 n
    rw [declareAll_cons, lastOverride]
    by_cases hov : d.1 = n ∧ d.2.1 = true
    · rw [if_pos ⟨hov.1.symm, .inl hov.2⟩] at hd
      rw [ih hd, if_pos hov]
      cases lastOverride n ds <;> rfl
    · rw [if_neg, h] at hd
      · rw [ih hd, if_neg hov, Option.or_none]
      · rintro ⟨rfl, hov' | hnone⟩
        · exact hov ⟨rfl, hov'⟩
        · rw [h] at hnone
          cases hnone

/-- A new name that is not overridden is provided by its first declaration. -/
theorem lookup_declareAll_of_none {ds : List (ν × Bool × κ)} (h : t.lookup n = none)
    (hov : ∀ d ∈ ds, d.1 = n → d.2.1 = false) :
    (declareAll t ds).lookup n = (ds.find? (·.1 == n)).map (·.2.2) := by
  induction ds generalizing t with
  | nil => exact h
  | cons d ds ih =>
    have hd := lookup_declare d.2.2 t d.1 d.2.1 n
    have hds : ∀ e ∈ ds, e.1 = n → e.2.1 = false := fun e he => hov e (List.mem_cons_of_mem _ he)
    rw [declareAll_cons]
    by_cases hn : d.1 = n
    · subst hn
      rw [if_pos ⟨rfl, .inr h⟩] at hd
      have hlast : lastOverride d.1 ds = none := by
        by_contra hne
        obtain ⟨k, hk⟩ := Option.ne_none_iff_exists'.1 hne
        have := hds _ (exists_of_lastOverride hk) rfl
        cases this
      rw [lookup_declareAll_of_some hd, hlast, List.find?_cons_of_pos (by simp)]
      rfl
    · rw [if_neg fun h => hn h.1.symm] at hd
      rw [ih (hd.trans h) hds, List.find?_cons_of_neg (by simpa using hn)]

theorem getElem?_updateFirst {α : Type*} {p : α → Bool} {f : α → α} {l l' : List α}
    (h : updateFirst p f l = some l') (i : Nat) :
    l'[i]? = if l.findIdx? p = some i then (l[i]?).map f else l[i]? := by
  induction l generalizing l' i with
  | nil => cases h
  | cons x xs ih =>
    simp only [updateFirst] at h
    rw [List.findIdx?_cons]
    split at h
    · next hx =>
      cases h
      rw [if_pos hx]
      cases i <;> simp
    · next hx =>
      obtain ⟨ys, hys, rfl⟩ := Option.map_eq_some_iff.1 h
      rw [if_neg hx]
      cases i with
      | zero => simp
      | succ i => simpa using ih hys i

/-- A declaration changes at most the first entry of its name. -/
theorem getElem?_declare {e : ν × κ} {i : Nat} (he : t[i]? = some e) (d : ν × Bool) :
    (declare k t d)[i]? =
      some (if d.2 = true ∧ t.findIdx? (·.1 == d.1) = some i then (e.1, k) else e) := by
  have hlt := (List.getElem?_eq_some_iff.1 he).1
  have happend : (t ++ [(d.1, k)])[i]? = some e := by rw [List.getElem?_append_left hlt, he]
  unfold declare
  by_cases hov : d.2 = true
  · rw [if_pos hov]
    cases hu : updateFirst (·.1 == d.1) (fun e => (e.1, k)) t with
    | none =>
      have hnone : t.findIdx? (·.1 == d.1) = none :=
        List.findIdx?_eq_none_iff.2 (updateFirst_eq_none_iff.1 hu)
      rw [if_neg (by rw [hnone]; simp)]
      exact happend
    | some t' =>
      show t'[i]? = _
      rw [getElem?_updateFirst hu, he]
      by_cases hi : t.findIdx? (·.1 == d.1) = some i
      · rw [if_pos hi, if_pos ⟨hov, hi⟩]
        rfl
      · rw [if_neg hi, if_neg fun h => hi h.2]
  · rw [if_neg hov, if_neg fun h => hov h.1]
    exact happend

/-- The first entry of a name gets the provider of the last override, the others keep theirs. -/
theorem getElem?_declareAll {e : ν × κ} {i : Nat} {ds : List (ν × Bool × κ)} (he : t[i]? = some e) :
    (declareAll t ds)[i]? = some (e.1,
      if t.findIdx? (·.1 == e.1) = some i then (lastOverride e.1 ds).getD e.2 else e.2) := by
  induction ds generalizing t e with
  | nil =>
    rw [declareAll_nil, he]
    simp [lastOverride]
  | cons d ds ih =>
    obtain ⟨m, ov, k⟩ := d
    have hlt := (List.getElem?_eq_some_iff.1 he).1
    have hd := getElem?_declare (k := k) he (m, ov)
    have hfst : (if ov = true ∧ t.findIdx? (·.1 == m) = some i then (e.1, k) else e).1 = e.1 := by
      split <;> rfl
    -- the first place of a name is the same after the declaration
    have hfirst : (declare k t (m, ov)).findIdx? (·.1 == e.1) = t.findIdx? (·.1 == e.1) := by
      cases hfind : t.findIdx? (·.1 == e.1) with
      | some j => exact findIdx?_of_prefix (names_prefix_declare k t (m, ov)) hfind
      | none =>
        have := List.findIdx?_eq_none_iff.1 hfind e (List.mem_of_getElem? he)
        simp at this
    rw [declareAll_cons, ih hd, hfst, hfirst, lastOverride]
    by_cases hi : t.findIdx? (·.1 == e.1) = some i
    · rw [if_pos hi, if_pos hi]
      by_cases hov : m = e.1 ∧ ov = true
      · obtain ⟨rfl, hov⟩ := hov
        rw [if_pos ⟨hov, hi⟩, if_pos ⟨rfl, hov⟩]
        cases lastOverride e.1 ds <;> rfl
      · rw [if_neg hov, Option.or_none, if_neg]
        rintro ⟨hov', hm⟩
        refine hov ⟨?_, hov'⟩
        have := (List.findIdx?_eq_some_iff_getElem.1 hm).2.1
        rw [List.getElem?_eq_getElem hlt, Option.some_inj] at he
        rw [he, beq_iff_eq] at this
        exact this.symm
    · rw [if_neg hi, if_neg hi, if_neg]
      rintro ⟨-, hm⟩
      have hname := (List.findIdx?_eq_some_iff_getElem.1 hm).2.1
      rw [List.getElem?_eq_getElem hlt, Option.some_inj] at he
      rw [he, beq_iff_eq] at hname
      exact hi (hname ▸ hm)

/-- The entries of `t` are at their places in `t'`, with related providers. -/
def Keeps (R : κ → κ → Prop) (t t' : OverrideTable ν κ) : Prop :=
  ∀ (i : Nat) (e : ν × κ), t[i]? = some e → ∃ k, t'[i]? = some (e.1, k) ∧ R k e.2

/-- A level keeps the inherited entries exactly when the last override of each name is related to its
inherited provider. -/
theorem keeps_declareAll_iff {R : κ → κ → Prop} {ds : List (ν × Bool × κ)} (hR : ∀ k, R k k) :
    Keeps R t (declareAll t ds) ↔
      ∀ n k₀ k, t.lookup n = some k₀ → lastOverride n ds = some k → R k k₀ := by
  constructor
  · intro hkeeps n k₀ k hl hlast
    cases hi : t.findIdx? (·.1 == n) with
    | none =>
      have hno : t.lookup n = none := by
        rw [lookup_eq_none_iff]
        intro hmem
        obtain ⟨e, he, hen⟩ := List.mem_map.1 hmem
        simpa [hen] using List.findIdx?_eq_none_iff.1 hi e he
      rw [hno] at hl
      cases hl
    | some i =>
      obtain ⟨hlt, hname, -⟩ := List.findIdx?_eq_some_iff_getElem.1 hi
      have hprovider := getElem?_of_findIdx? hi
      rw [List.getElem?_eq_getElem hlt, hl, Option.map_some, Option.some_inj] at hprovider
      have hget : t[i]? = some (n, k₀) := by
        rw [List.getElem?_eq_getElem hlt, Option.some_inj]
        exact Prod.ext (by simpa using hname) hprovider
      obtain ⟨k', hk', hr⟩ := hkeeps i _ hget
      rw [getElem?_declareAll hget, if_pos hi, hlast] at hk'
      cases hk'
      exact hr
  · intro hall i e he
    refine ⟨_, getElem?_declareAll he, ?_⟩
    split
    · next hi =>
      have hl := getElem?_of_findIdx? hi
      rw [he] at hl
      cases hlast : lastOverride e.1 ds with
      | none => exact hR _
      | some k => exact hall _ _ _ hl.symm hlast
    · exact hR _

end OverrideTable
end NewM2
