import Mathlib
import NewM2.Ui.Ptcl.Expr

/-!
# The grammar of expressions

`Derives k s t`: the characters `s` are an expression whose tree is `t`. Level 0 is any expression, the levels from 1
to 6 are those of the operators, and level 7 is an operand. A reader that only builds trees is sound and complete for
the grammar, which is therefore unambiguous. -/

namespace NewM2.Ui.Ptcl

inductive Tree
  | num (n : Nat)
  | neg (t : Tree)
  | not (t : Tree)
  | bin (op : Op) (l r : Tree)

def Op.text : Op → List Code
  | or => [code '|', code '|']
  | and => [code '&', code '&']
  | eq => [code '=', code '=']
  | ne => [code '!', code '=']
  | lt => [code '<']
  | le => [code '<', code '=']
  | gt => [code '>']
  | ge => [code '>', code '=']
  | add => [code '+']
  | sub => [code '-']
  | mul => [code '*']
  | div => [code '/']
  | mod => [code '%']

/-- The value of decimal digits. -/
def number (ds : List Code) : Nat := ds.foldl (fun n d => 10 * n + (d.toNat - 48)) 0

def Blanks (b : List Code) : Prop := ∀ c ∈ b, c = blank

inductive Derives : Nat → List Code → Tree → Prop
  | num {b ds : List Code} : Blanks b → ds ≠ [] → (∀ d ∈ ds, isDigit d) → Derives 7 (b ++ ds) (.num (number ds))
  | neg {b s : List Code} {t : Tree} : Blanks b → Derives 7 s t → Derives 7 (b ++ code '-' :: s) (.neg t)
  | not {b s : List Code} {t : Tree} : Blanks b → Derives 7 s t → Derives 7 (b ++ code '!' :: s) (.not t)
  | paren {b s b' : List Code} {t : Tree} :
      Blanks b → Derives 0 s t → Blanks b' → Derives 7 (b ++ code '(' :: (s ++ (b' ++ [code ')']))) t
  | next {k : Nat} {s : List Code} {t : Tree} : Derives (k + 1) s t → Derives k s t
  | bin {op : Op} {s b s' : List Code} {l r : Tree} :
      Derives op.prec s l → Blanks b → Derives (op.prec + 1) s' r →
        Derives op.prec (s ++ (b ++ (op.text ++ s'))) (.bin op l r)

/-- The whole text is an expression, maybe with blanks behind it. -/
def Parses (u : List Code) (t : Tree) : Prop := ∃ s b, u = s ++ b ∧ Blanks b ∧ Derives 0 s t

variable {b b' s s' s'' rest u : List Code} {t t' l r : Tree} {op op' : Op} {i j k m n p : Nat} {c d : Code}

theorem Derives.of_le (h : Derives k s t) (hj : j ≤ k) : Derives j s t := by
  induction hj with
  | refl => exact h
  | step hj ih => exact ih h.next

/-! ## Blanks and operators -/

def dropBlanks (s : List Code) : List Code := s.dropWhile (· = blank)

@[simp] theorem blanks_nil : Blanks [] := by simp [Blanks]

@[simp] theorem blanks_cons : Blanks (c :: b) ↔ c = blank ∧ Blanks b := by simp [Blanks]

theorem Blanks.append (h : Blanks b) (h' : Blanks b') : Blanks (b ++ b') := by
  intro c hc
  rcases List.mem_append.mp hc with hc | hc
  · exact h c hc
  · exact h' c hc

theorem blanks_dropBlanks (s : List Code) : ∃ b, Blanks b ∧ s = b ++ dropBlanks s := by
  refine ⟨s.takeWhile (· = blank), fun c hc => ?_, List.takeWhile_append_dropWhile.symm⟩
  simpa using List.mem_takeWhile_imp hc

theorem dropBlanks_append (h : Blanks b) : dropBlanks (b ++ s) = dropBlanks s := by
  rw [dropBlanks, List.dropWhile_append_of_pos (fun c hc => by simpa using h c hc)]
  rfl

theorem dropBlanks_cons (h : c ≠ blank) : dropBlanks (c :: s) = c :: s := by
  rw [dropBlanks, List.dropWhile_cons_of_neg (by simpa using h)]

theorem dropBlanks_idem (s : List Code) : dropBlanks (dropBlanks s) = dropBlanks s := by
  rw [dropBlanks, dropBlanks, List.dropWhile_idempotent]

/-- The operator that the text begins with. -/
def opAt : List Code → Option Op
  | [] => none
  | c :: cs => Op.ofChars c (cs.headD nul)

theorem of_ite {β : Type} {p : Prop} [Decidable p] {a a' : β} {x : Option β}
    (h : (if p then some a else x) = some a') : p ∧ a = a' ∨ x = some a' := by
  split_ifs at h with hp
  · exact .inl ⟨hp, Option.some.inj h⟩
  · exact .inr h

theorem text_of_ofChars {c2 : Code} (h : Op.ofChars c c2 = some op) :
    op.text = [c] ∧ op.length = 1 ∨ op.text = [c, c2] ∧ op.length = 2 ∧ c2 ≠ nul := by
  unfold Op.ofChars at h
  rcases of_ite h with ⟨⟨rfl, rfl⟩, rfl⟩ | h
  · exact .inr ⟨rfl, rfl, by decide⟩
  rcases of_ite h with ⟨⟨rfl, rfl⟩, rfl⟩ | h
  · exact .inr ⟨rfl, rfl, by decide⟩
  rcases of_ite h with ⟨⟨rfl, rfl⟩, rfl⟩ | h
  · exact .inr ⟨rfl, rfl, by decide⟩
  rcases of_ite h with ⟨⟨rfl, rfl⟩, rfl⟩ | h
  · exact .inr ⟨rfl, rfl, by decide⟩
  rcases of_ite h with ⟨⟨rfl, rfl⟩, rfl⟩ | h
  · exact .inr ⟨rfl, rfl, by decide⟩
  rcases of_ite h with ⟨⟨rfl, rfl⟩, rfl⟩ | h
  · exact .inr ⟨rfl, rfl, by decide⟩
  rcases of_ite h with ⟨rfl, rfl⟩ | h
  · exact .inl ⟨rfl, rfl⟩
  rcases of_ite h with ⟨rfl, rfl⟩ | h
  · exact .inl ⟨rfl, rfl⟩
  rcases of_ite h with ⟨rfl, rfl⟩ | h
  · exact .inl ⟨rfl, rfl⟩
  rcases of_ite h with ⟨rfl, rfl⟩ | h
  · exact .inl ⟨rfl, rfl⟩
  rcases of_ite h with ⟨rfl, rfl⟩ | h
  · exact .inl ⟨rfl, rfl⟩
  rcases of_ite h with ⟨rfl, rfl⟩ | h
  · exact .inl ⟨rfl, rfl⟩
  rcases of_ite h with ⟨rfl, rfl⟩ | h
  · exact .inl ⟨rfl, rfl⟩
  exact absurd h (by simp)

theorem text_of_opAt (h : opAt s = some op) : s = op.text ++ s.drop op.length ∧ op.length ≤ s.length := by
  rcases s with - | ⟨c, s⟩
  · exact absurd h (by simp [opAt])
  rcases text_of_ofChars h with ⟨htext, hlen⟩ | ⟨htext, hlen, hnul⟩
  · simp [htext, hlen]
  · rcases s with - | ⟨d, s⟩
    · exact absurd rfl hnul
    · simp [htext, hlen]

/-- What stands behind an operator does not begin with the character that would make it a longer one. -/
theorem opAt_text (h : s.head? ≠ some (code '=')) (op : Op) : opAt (op.text ++ s) = some op := by
  have hhead : s.headD nul ≠ code '=' := by
    rcases s with - | ⟨c, s⟩
    · decide
    · simpa using h
  generalize hd : s.headD nul = d at hhead
  cases op <;> simp_all [Op.text, opAt, Op.ofChars, code]

theorem length_text (op : Op) : op.text.length = op.length := by cases op <;> rfl

theorem prec_le_six (op : Op) : op.prec ≤ 6 := by cases op <;> decide

theorem one_le_length (op : Op) : 1 ≤ op.length := by cases op <;> decide

/-! ## The reader -/

mutual

/-- The tree of an expression of level `m` at least, and what is behind it and its blanks. -/
def readBin : Nat → Nat → List Code → Option (Tree × List Code)
  | 0, _, _ => none
  | n + 1, m, s => do
    let (l, s) ← readAtom n s
    readLoop n m l s

def readLoop : Nat → Nat → Tree → List Code → Option (Tree × List Code)
  | 0, _, _, _ => none
  | n + 1, m, l, s =>
    match opAt (dropBlanks s) with
    | none => some (l, dropBlanks s)
    | some op =>
      if op.prec < m then some (l, dropBlanks s)
      else do
        let (r, s) ← readBin n (op.prec + 1) ((dropBlanks s).drop op.length)
        readLoop n m (.bin op l r) s

def readAtom : Nat → List Code → Option (Tree × List Code)
  | 0, _ => none
  | n + 1, s =>
    match dropBlanks s with
    | [] => none
    | c :: s =>
      if c = code '-' then do
        let (t, s) ← readAtom n s
        return (.neg t, s)
      else if c = code '!' then do
        let (t, s) ← readAtom n s
        return (.not t, s)
      else if c = code '(' then do
        let (t, s) ← readBin n 0 s
        if (dropBlanks s).head? = some (code ')') then return (t, (dropBlanks s).tail) else none
      else if isDigit c then
        some (.num (number ((c :: s).takeWhile (isDigit ·))), (c :: s).dropWhile (isDigit ·))
      else none

end

/-- The tree of the whole text. -/
def readTree (u : List Code) : Option Tree :=
  match readBin (2 * u.length + 2) 0 u with
  | some (t, []) => some t
  | _ => none

/-- No operator of a level above `k` follows. -/
def NextLe (k : Nat) (s : List Code) : Prop := ∀ op, opAt (dropBlanks s) = some op → op.prec ≤ k

theorem nextLe_six (s : List Code) : NextLe 6 s := fun op _ => prec_le_six op

theorem NextLe.mono (h : NextLe k s) (hk : k ≤ m) : NextLe m s := fun op hop => (h op hop).trans hk

/-! ### Soundness -/

/-- What the reader returns for the text `b ++ s`, when `a` has been read before: an expression of level `k`. -/
structure Reads (k : Nat) (a b s : List Code) (t : Tree) (s' : List Code) : Prop where
  derives : ∃ s1 b1, b ++ s = s1 ++ (b1 ++ s') ∧ Blanks b1 ∧ Derives k (a ++ s1) t
  next : ∀ op, opAt s' = some op → op.prec < k
  blanks : dropBlanks s' = s'

theorem reads_exit {a : List Code} (hl : Derives k a l) (hm : m ≤ k) (hb : Blanks b)
    (hnext : ∀ op, opAt (dropBlanks s) = some op → op.prec < m) : Reads m a b s l (dropBlanks s) := by
  obtain ⟨b2, hb2, hs⟩ := blanks_dropBlanks s
  refine ⟨⟨[], b ++ b2, ?_, hb.append hb2, ?_⟩, hnext, dropBlanks_idem s⟩
  · rw [List.nil_append, List.append_assoc, ← hs]
  · rw [List.append_nil]
    exact hl.of_le hm

/-- The right operand has been read, and the rest of the loop is to come. -/
theorem reads_op {a s3 : List Code} (hl : Derives k a l) (hb : Blanks b) (hop : opAt (dropBlanks s) = some op)
    (hk : op.prec ≤ k) (hr : Reads (op.prec + 1) [] [] ((dropBlanks s).drop op.length) r s3)
    (hrest : ∀ a' b', Derives op.prec a' (.bin op l r) → Blanks b' → Reads m a' b' s3 t s') : Reads m a b s t s' := by
  obtain ⟨b2, hb2, hs⟩ := blanks_dropBlanks s
  obtain ⟨htext, -⟩ := text_of_opAt hop
  obtain ⟨s4, b4, hs4, hb4, hr4⟩ := hr.derives
  have hbin := Derives.bin (hl.of_le hk) (hb.append hb2) hr4
  have hloop := hrest _ b4 hbin hb4
  obtain ⟨s5, b5, hs5, hb5, ht⟩ := hloop.derives
  refine ⟨⟨(b ++ b2) ++ (op.text ++ (s4 ++ s5)), b5, ?_, hb5, ?_⟩, hloop.next, hloop.blanks⟩
  · calc b ++ s = b ++ (b2 ++ (op.text ++ (dropBlanks s).drop op.length)) := by rw [← htext, ← hs]
      _ = b ++ (b2 ++ (op.text ++ (s4 ++ (b4 ++ s3)))) := by simp only [List.nil_append] at hs4; rw [hs4]
      _ = _ := by rw [hs5]; simp only [List.append_assoc]
  · simpa only [List.append_assoc, List.nil_append] using ht

theorem number_reads (hb : Blanks b) (hs : s = b ++ c :: s'') (hc : isDigit c) :
    ∃ s1, s = s1 ++ (c :: s'').dropWhile (isDigit ·) ∧
      Derives 7 s1 (.num (number ((c :: s'').takeWhile (isDigit ·)))) := by
  refine ⟨b ++ (c :: s'').takeWhile (isDigit ·), ?_, .num hb ?_ fun d hd => ?_⟩
  · rw [List.append_assoc, List.takeWhile_append_dropWhile, hs]
  · simp [List.takeWhile_cons_of_pos, hc]
  · simpa using List.mem_takeWhile_imp hd

theorem read_sound (n : Nat) :
    (∀ s t s', readAtom n s = some (t, s') → ∃ s1, s = s1 ++ s' ∧ Derives 7 s1 t) ∧
      (∀ m s t s', m ≤ 7 → readBin n m s = some (t, s') → Reads m [] [] s t s') ∧
      ∀ m k a b s l t s', Derives k a l → m ≤ k → Blanks b → NextLe k s → readLoop n m l s = some (t, s') →
        Reads m a b s t s' := by
  induction n with
  | zero =>
    refine ⟨fun s t s' h => ?_, fun m s t s' _ h => ?_, fun m k a b s l t s' _ _ _ _ h => ?_⟩
    · simp [readAtom] at h
    · simp [readBin] at h
    · simp [readLoop] at h
  | succ n ih =>
    obtain ⟨hatom, hbin, hloop⟩ := ih
    refine ⟨fun s t s' h => ?_, fun m s t s' hm h => ?_, fun m k a b s l t s' hl hm hb hnext h => ?_⟩
    · obtain ⟨b, hb, hs⟩ := blanks_dropBlanks s
      rw [readAtom] at h
      rcases hdrop : dropBlanks s with - | ⟨c, s''⟩
      · simp [hdrop] at h
      rw [hdrop] at h hs
      simp only at h
      by_cases hneg : c = code '-'
      · rw [if_pos hneg] at h
        obtain ⟨⟨t, s2⟩, ht, h⟩ := Option.bind_eq_some_iff.mp h
        obtain ⟨rfl, rfl⟩ : Tree.neg t = _ ∧ s2 = s' := by simpa using h
        obtain ⟨s1, rfl, hd⟩ := hatom _ _ _ ht
        exact ⟨b ++ code '-' :: s1, by rw [hs, hneg]; simp, .neg hb hd⟩
      rw [if_neg hneg] at h
      by_cases hnot : c = code '!'
      · rw [if_pos hnot] at h
        obtain ⟨⟨t, s2⟩, ht, h⟩ := Option.bind_eq_some_iff.mp h
        obtain ⟨rfl, rfl⟩ : Tree.not t = _ ∧ s2 = s' := by simpa using h
        obtain ⟨s1, rfl, hd⟩ := hatom _ _ _ ht
        exact ⟨b ++ code '!' :: s1, by rw [hs, hnot]; simp, .not hb hd⟩
      rw [if_neg hnot] at h
      by_cases hparen : c = code '('
      · rw [if_pos hparen] at h
        obtain ⟨⟨t', s2⟩, ht, h⟩ := Option.bind_eq_some_iff.mp h
        obtain ⟨⟨s1, b1, hs1, hb1, hd⟩, -, hblank⟩ := hbin _ _ _ _ (Nat.zero_le _) ht
        simp only [hblank] at h
        rcases s2 with - | ⟨d, s2⟩
        · simp at h
        by_cases hclose : d = code ')'
        · obtain ⟨rfl, rfl⟩ : t' = t ∧ s2 = s' := by simpa [hclose] using h
          refine ⟨b ++ code '(' :: (s1 ++ (b1 ++ [code ')'])), ?_, .paren hb (by simpa using hd) hb1⟩
          simp only [List.nil_append] at hs1
          rw [hs, hparen, hs1, hclose]
          simp
        · simp [hclose] at h
      rw [if_neg hparen] at h
      by_cases hdigit : isDigit c
      · rw [if_pos hdigit] at h
        obtain ⟨rfl, rfl⟩ : Tree.num _ = t ∧ _ = s' := by simpa only [Option.some.injEq, Prod.mk.injEq] using h
        exact number_reads hb hs hdigit
      · simp [hdigit] at h
    · rw [readBin] at h
      obtain ⟨⟨l, s2⟩, hl, hrest⟩ := Option.bind_eq_some_iff.mp h
      obtain ⟨s1, rfl, hd⟩ := hatom _ _ _ hl
      obtain ⟨⟨s3, b3, hs3, hb3, hd3⟩, hnext, hblank⟩ :=
        hloop m 7 s1 [] s2 l t s' hd hm blanks_nil ((nextLe_six s2).mono (by decide)) hrest
      refine ⟨⟨s1 ++ s3, b3, ?_, hb3, by simpa using hd3⟩, hnext, hblank⟩
      simp only [List.nil_append] at hs3
      rw [hs3]
      simp
    · rw [readLoop] at h
      rcases hop : opAt (dropBlanks s) with - | op
      · simp only [hop, Option.some.injEq, Prod.mk.injEq] at h
        obtain ⟨rfl, rfl⟩ := h
        exact reads_exit hl hm hb (by simp [hop])
      simp only [hop] at h
      by_cases hlow : op.prec < m
      · rw [if_pos hlow, Option.some.injEq, Prod.mk.injEq] at h
        obtain ⟨rfl, rfl⟩ := h
        exact reads_exit hl hm hb (by simpa [hop] using hlow)
      rw [if_neg hlow] at h
      obtain ⟨⟨r, s3⟩, hr, h⟩ := Option.bind_eq_some_iff.mp h
      have hread := hbin _ _ _ _ (Nat.succ_le_succ (prec_le_six op)) hr
      refine reads_op hl hb hop (hnext op hop) hread fun a' b' hd hb' => ?_
      refine hloop m op.prec a' b' s3 _ t s' hd (not_lt.mp hlow) hb' ?_ h
      intro op' hop'
      rw [hread.blanks] at hop'
      exact Nat.lt_succ_iff.mp (hread.next op' hop')

/-! ### Completeness -/

/-- A number does not go on. -/
def Ends (s : List Code) : Prop := ∀ c, s.head? = some c → isDigit c = false

theorem ends_blanks (hb : Blanks b) (hs : Ends s) : Ends (b ++ s) := by
  intro c hc
  rcases b with - | ⟨d, b⟩
  · exact hs c hc
  · obtain rfl : d = c := by simpa using hc
    rw [(blanks_cons.mp hb).1]
    decide

theorem ends_text (op : Op) (s : List Code) : Ends (op.text ++ s) := by
  intro c hc
  cases op <;> simp only [Op.text, List.cons_append, List.head?_cons, Option.some.injEq] at hc <;>
    rw [← hc] <;> decide

/-- An expression begins with a blank, a sign, a parenthesis or a digit. -/
theorem Derives.head (h : Derives k s t) :
    ∃ c s', s = c :: s' ∧ (c = blank ∨ c = code '-' ∨ c = code '!' ∨ c = code '(' ∨ isDigit c) := by
  have hfront : ∀ {b s : List Code} {c : Code}, Blanks b →
      (c = blank ∨ c = code '-' ∨ c = code '!' ∨ c = code '(' ∨ isDigit c) →
      ∃ d s', b ++ c :: s = d :: s' ∧ (d = blank ∨ d = code '-' ∨ d = code '!' ∨ d = code '(' ∨ isDigit d) := by
    intro b s c hb hc
    rcases b with - | ⟨d, b⟩
    · exact ⟨c, s, rfl, hc⟩
    · exact ⟨d, b ++ c :: s, rfl, .inl (blanks_cons.mp hb).1⟩
  induction h with
  | @num b ds hb hne hds =>
    rcases ds with - | ⟨d, ds⟩
    · exact absurd rfl hne
    · exact hfront hb (.inr (.inr (.inr (.inr (hds d (by simp))))))
  | neg hb _ _ => exact hfront hb (by simp)
  | not hb _ _ => exact hfront hb (by simp)
  | paren hb _ _ _ => exact hfront hb (by simp)
  | next _ ih => exact ih
  | bin _ _ _ ih _ =>
    obtain ⟨c, s', rfl, hc⟩ := ih
    exact ⟨c, _, rfl, hc⟩

theorem opAt_derives (h : Derives k s t) (op : Op) : opAt (op.text ++ (s ++ rest)) = some op := by
  obtain ⟨c, s', rfl, hc⟩ := h.head
  refine opAt_text ?_ op
  rw [List.cons_append, List.head?_cons, Ne, Option.some.injEq]
  rintro rfl
  exact absurd hc (by decide)

theorem dropBlanks_text (op : Op) (s : List Code) : dropBlanks (op.text ++ s) = op.text ++ s := by
  cases op <;> exact dropBlanks_cons (by decide)

theorem Derives.level_le (h : Derives k s t) : k ≤ 7 := by
  induction h with
  | num | neg | not | paren => exact le_rfl
  | next _ ih => omega
  | bin => exact (prec_le_six _).trans (by decide)

theorem readLoop_exit (hn : 1 ≤ n) (hnext : ∀ op, opAt (dropBlanks s) = some op → op.prec < m) :
    readLoop n m l s = some (l, dropBlanks s) := by
  obtain ⟨n, rfl⟩ : ∃ n', n = n' + 1 := ⟨n - 1, by omega⟩
  rw [readLoop]
  rcases hop : opAt (dropBlanks s) with - | op
  · rfl
  · exact if_pos (hnext op hop)

theorem readLoop_op (hop : opAt (dropBlanks s) = some op) (hm : m ≤ op.prec)
    (hr : readBin n (op.prec + 1) ((dropBlanks s).drop op.length) = some (r, s'')) :
    readLoop (n + 1) m l s = readLoop n m (.bin op l r) s'' := by
  rw [readLoop]
  simp only [hop, if_neg (not_lt.mpr hm), hr, Option.bind_eq_bind, Option.bind_some]

theorem readLoop_dropBlanks : readLoop n m l (dropBlanks s) = readLoop n m l s := by
  rcases n with - | n
  · rw [readLoop, readLoop]
  · rw [readLoop, readLoop, dropBlanks_idem]

/-- An operand before `rest`. -/
def AtomReads (s : List Code) (t : Tree) (rest : List Code) : Prop :=
  ∀ n, 2 * (s ++ rest).length + 1 ≤ n → readAtom n (s ++ rest) = some (t, rest)

/-- An expression of level `k` before `rest`; the loop goes on behind it. -/
def BinReads (k : Nat) (s : List Code) (t : Tree) (rest : List Code) : Prop :=
  ∀ j ≤ k, ∀ n, 2 * (s ++ rest).length + 2 ≤ n →
    ∃ n', 2 * rest.length + 1 ≤ n' ∧ readBin n j (s ++ rest) = readLoop n' j t rest

theorem AtomReads.binReads (h : AtomReads s t rest) (k : Nat) : BinReads k s t rest := by
  intro j _ n hn
  obtain ⟨n, rfl⟩ : ∃ n', n = n' + 1 := ⟨n - 1, by omega⟩
  rw [List.length_append] at hn
  refine ⟨n, by omega, ?_⟩
  rw [readBin, h n (by rw [List.length_append]; omega)]
  rfl

/-- An expression of level `k` whose loop ends before `rest`. -/
theorem BinReads.exit (h : BinReads k s t rest) (hn : 2 * (s ++ rest).length + 2 ≤ n)
    (hnext : ∀ op, opAt (dropBlanks rest) = some op → op.prec < k) : readBin n k (s ++ rest) = some (t, dropBlanks rest) := by
  obtain ⟨n', hn', hread⟩ := h k le_rfl n hn
  rw [hread]
  exact readLoop_exit (by omega) hnext

theorem atomReads_num {ds : List Code} (hb : Blanks b) (hne : ds ≠ []) (hds : ∀ d ∈ ds, isDigit d) (hrest : Ends rest) :
    AtomReads (b ++ ds) (.num (number ds)) rest := by
  intro n hn
  obtain ⟨n, rfl⟩ : ∃ n', n = n' + 1 := ⟨n - 1, by omega⟩
  have hstop : rest.takeWhile (isDigit ·) = [] ∧ rest.dropWhile (isDigit ·) = rest := by
    rcases rest with - | ⟨c, rest⟩
    · exact ⟨rfl, rfl⟩
    · have hc := hrest c rfl
      simp [hc]
  obtain ⟨d, ds', rfl⟩ := List.exists_cons_of_ne_nil hne
  have hd : isDigit d := hds d (by simp)
  have hne : d ≠ blank ∧ d ≠ code '-' ∧ d ≠ code '!' ∧ d ≠ code '(' := by
    refine ⟨?_, ?_, ?_, ?_⟩ <;> rintro rfl <;> exact absurd hd (by decide)
  rw [readAtom, List.append_assoc, dropBlanks_append hb, List.cons_append, dropBlanks_cons hne.1]
  simp only [if_neg hne.2.1, if_neg hne.2.2.1, if_neg hne.2.2.2, hd, if_true]
  rw [← List.cons_append, List.takeWhile_append_of_pos hds, List.dropWhile_append_of_pos hds, hstop.1, hstop.2,
    List.append_nil]

theorem atomReads_neg (hb : Blanks b) (h : AtomReads s t rest) : AtomReads (b ++ code '-' :: s) (.neg t) rest := by
  intro n hn
  obtain ⟨n, rfl⟩ : ∃ n', n = n' + 1 := ⟨n - 1, by omega⟩
  have hs := h n (by simp only [List.length_append, List.length_cons] at hn ⊢; omega)
  rw [readAtom, List.append_assoc, dropBlanks_append hb, List.cons_append, dropBlanks_cons (by decide)]
  simp only [if_true, hs]
  rfl

theorem atomReads_not (hb : Blanks b) (h : AtomReads s t rest) : AtomReads (b ++ code '!' :: s) (.not t) rest := by
  intro n hn
  obtain ⟨n, rfl⟩ : ∃ n', n = n' + 1 := ⟨n - 1, by omega⟩
  have hs := h n (by simp only [List.length_append, List.length_cons] at hn ⊢; omega)
  rw [readAtom, List.append_assoc, dropBlanks_append hb, List.cons_append, dropBlanks_cons (by decide)]
  have hne : code '!' ≠ code '-' := by decide
  simp only [if_neg hne, if_true, hs]
  rfl

theorem atomReads_paren (hb : Blanks b) (hb' : Blanks b') (h : BinReads 0 s t (b' ++ code ')' :: rest)) :
    AtomReads (b ++ code '(' :: (s ++ (b' ++ [code ')']))) t rest := by
  intro n hn
  obtain ⟨n, rfl⟩ : ∃ n', n = n' + 1 := ⟨n - 1, by omega⟩
  have hclose : dropBlanks (b' ++ code ')' :: rest) = code ')' :: rest := by
    rw [dropBlanks_append hb', dropBlanks_cons (by decide)]
  have hnone : opAt (code ')' :: rest) = none := by simp [opAt, Op.ofChars, code]
  have hs := BinReads.exit (n := n) h (by simp only [List.length_append, List.length_cons] at hn ⊢; omega)
    (by simp [hclose, hnone])
  rw [hclose] at hs
  rw [readAtom, List.append_assoc, dropBlanks_append hb, List.cons_append, dropBlanks_cons (by decide)]
  have hne : code '(' ≠ code '-' ∧ code '(' ≠ code '!' := by decide
  simp only [List.append_assoc, List.singleton_append, if_neg hne.1, if_neg hne.2, if_true, hs]
  simp [dropBlanks_cons (show code ')' ≠ blank by decide)]

theorem binReads_bin (hl : ∀ rest, NextLe op.prec rest → Ends rest → BinReads op.prec s l rest) (hb : Blanks b)
    (hr : BinReads (op.prec + 1) s' r rest) (hd : Derives (op.prec + 1) s' r) (hnext : NextLe op.prec rest) :
    BinReads op.prec (s ++ (b ++ (op.text ++ s'))) (.bin op l r) rest := by
  intro j hj n hn
  have hdrop : dropBlanks (b ++ (op.text ++ (s' ++ rest))) = op.text ++ (s' ++ rest) := by
    rw [dropBlanks_append hb, dropBlanks_text]
  have hop : opAt (op.text ++ (s' ++ rest)) = some op := opAt_derives hd op
  have hlnext : NextLe op.prec (b ++ (op.text ++ (s' ++ rest))) := by
    intro op' hop'
    rw [hdrop, hop, Option.some.injEq] at hop'
    exact hop' ▸ le_rfl
  have hshape : s ++ (b ++ (op.text ++ s')) ++ rest = s ++ (b ++ (op.text ++ (s' ++ rest))) := by
    simp only [List.append_assoc]
  rw [hshape] at hn ⊢
  obtain ⟨n1, hn1, hread⟩ := hl _ hlnext (ends_blanks hb (ends_text op _)) j hj n hn
  obtain ⟨n1, rfl⟩ : ∃ n', n1 = n' + 1 := ⟨n1 - 1, by omega⟩
  have hlen := one_le_length op
  simp only [List.length_append, length_text] at hn1
  have hright : readBin n1 (op.prec + 1) (s' ++ rest) = some (r, dropBlanks rest) :=
    hr.exit (by rw [List.length_append]; omega) fun op' hop' => Nat.lt_succ_of_le (hnext op' hop')
  refine ⟨n1, by omega, ?_⟩
  have hdropped : readBin n1 (op.prec + 1) ((dropBlanks (b ++ (op.text ++ (s' ++ rest)))).drop op.length) =
      some (r, dropBlanks rest) := by
    rw [hdrop, ← length_text, List.drop_left, hright]
  rw [hread, readLoop_op (by rw [hdrop, hop]) hj hdropped, readLoop_dropBlanks]

theorem read_complete (h : Derives k s t) :
    ∀ rest, NextLe k rest → Ends rest → (k = 7 → AtomReads s t rest) ∧ BinReads k s t rest := by
  induction h with
  | num hb hne hds =>
    intro rest _ hrest
    have hatom := atomReads_num hb hne hds hrest
    exact ⟨fun _ => hatom, hatom.binReads 7⟩
  | neg hb _ ih =>
    intro rest hnext hrest
    have hatom := atomReads_neg hb ((ih rest hnext hrest).1 rfl)
    exact ⟨fun _ => hatom, hatom.binReads 7⟩
  | not hb _ ih =>
    intro rest hnext hrest
    have hatom := atomReads_not hb ((ih rest hnext hrest).1 rfl)
    exact ⟨fun _ => hatom, hatom.binReads 7⟩
  | @paren b s b' t hb _ hb' ih =>
    intro rest _ _
    have hclose : dropBlanks (b' ++ code ')' :: rest) = code ')' :: rest := by
      rw [dropBlanks_append hb', dropBlanks_cons (by decide)]
    have hnone : opAt (code ')' :: rest) = none := by simp [opAt, Op.ofChars, code]
    have hends : Ends (code ')' :: rest) := by
      rintro c ⟨rfl⟩
      decide
    have hatom := atomReads_paren hb hb'
      (ih _ (fun op hop => by simp [hclose, hnone] at hop) (ends_blanks hb' hends)).2
    exact ⟨fun _ => hatom, hatom.binReads 7⟩
  | @next k s t hd ih =>
    intro rest hnext hrest
    have hlevel := hd.level_le
    have hread := (ih rest (hnext.mono (Nat.le_succ k)) hrest).2
    exact ⟨fun hk => by omega, fun j hj => hread j (hj.trans (Nat.le_succ k))⟩
  | @bin op _ _ _ _ _ _ hb hd ihl ihr =>
    intro rest hnext hrest
    have hprec := prec_le_six op
    have hr := (ihr rest (hnext.mono (Nat.le_succ _)) hrest).2
    exact ⟨fun hk => by omega, binReads_bin (fun rest h1 h2 => (ihl rest h1 h2).2) hb hr hd hnext⟩

theorem readBin_of_parses (h : Parses u t) (hn : 2 * u.length + 2 ≤ n) : readBin n 0 u = some (t, []) := by
  obtain ⟨s, b, rfl, hb, hd⟩ := h
  have hdrop : dropBlanks b = [] := by
    rw [← List.append_nil b, dropBlanks_append hb]
    rfl
  have hnone : ∀ op, opAt (dropBlanks b) ≠ some op := by simp [hdrop, opAt]
  have hends : Ends b := by simpa using ends_blanks (s := []) hb (by simp [Ends])
  have hread := (read_complete hd b (fun op hop => absurd hop (hnone op)) hends).2
  rw [hread.exit hn (fun op hop => absurd hop (hnone op)), hdrop]

theorem parses_of_readBin (h : readBin n 0 u = some (t, [])) : Parses u t := by
  obtain ⟨⟨s, b, hs, hb, hd⟩, -, -⟩ := (read_sound n).2.1 0 u t [] (Nat.zero_le _) h
  exact ⟨s, b, by simpa using hs, hb, by simpa using hd⟩

theorem parses_iff : Parses u t ↔ readTree u = some t := by
  rw [readTree]
  constructor
  · intro h
    rw [readBin_of_parses h le_rfl]
  · intro h
    rcases hread : readBin (2 * u.length + 2) 0 u with - | ⟨t', s⟩
    · simp [hread] at h
    · rcases s with - | ⟨c, s⟩
      · obtain rfl : t' = t := by simpa [hread] using h
        exact parses_of_readBin hread
      · simp [hread] at h

/-- The grammar is unambiguous. -/
theorem parses_unique (h : Parses u t) (h' : Parses u t') : t = t' := by
  rw [parses_iff] at h h'
  exact Option.some.inj (h.symm.trans h')

end NewM2.Ui.Ptcl
