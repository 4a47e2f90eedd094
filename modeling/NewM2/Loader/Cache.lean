import Mathlib
import NewM2.Lib.Text
import NewM2.Lexer.Preprocess
import NewM2.Syntax.Ident

/-! # Cache keys (`newm2-loader/src/cache.rs`)

The hash of a source text, the key of a module and its text. `CacheKey.toText_inj`: the text determines
the module, its hash and the hashes of what it imports. `CacheKey.text_round_trip`: reading the text gives
the key back unless a line of it has nothing behind its header. -/

namespace NewM2.Loader
open Lexer Text

/-- `%016x` of a number below `16 ^ k`, for `k = 16`. -/
def hexDigits : Nat → Nat → List Char
  | 0, _ => []
  | k + 1, n => hexDigits k (n / 16) ++ [Nat.digitChar (n % 16)]

/-- Display of a `ContentHash`. -/
@[irreducible] def hashText (h : UInt64) : List Char := hexDigits 16 h.toNat

abbrev ContentHash := UInt64

/-- DJB2. -/
def hashSource (bytes : Bytes) : ContentHash :=
  bytes.foldl (fun h b => h * 33 + b.toUInt64) 5381

inductive MemoryMode
  | gc | noGc
deriving Repr, DecidableEq

def MemoryMode.asStr : MemoryMode → String
  | gc => "gc"
  | noGc => "nogc"

def compilerVersion : String := "0.0.0"

structure CacheKey where
  module_ : String
  defHash : ContentHash
  /-- Sorted by name, then by hash. -/
  transitive : List (String × ContentHash)
  compilerVersion : String
  codegenFlags : String
  memoryMode : MemoryMode

namespace CacheKey

def transLine (t : String × ContentHash) : List Char :=
  "trans ".toList ++ t.1.toList ++ ' ' :: hashText t.2 ++ ['\n']

def toText (k : CacheKey) : String :=
  String.ofList ("module ".toList ++ k.module_.toList ++ '\n' ::
    ("def-hash ".toList ++ hashText k.defHash ++ '\n' ::
    (k.transitive.flatMap transLine ++ ("compiler ".toList ++ k.compilerVersion.toList ++ '\n' ::
    ("codegen ".toList ++ k.codegenFlags.toList ++ '\n' ::
    ("memory ".toList ++ k.memoryMode.asStr.toList ++ ['\n']))))))

end CacheKey

/-! ## Reading a key -/

inductive IntErrorKind
  | empty | invalidDigit | posOverflow
deriving Repr, DecidableEq

/-- `char::to_digit(16)`. -/
def toDigit (c : Char) : Option Nat :=
  if '0' ≤ c ∧ c ≤ '9' then some (c.toNat - '0'.toNat)
  else if 'a' ≤ c ∧ c ≤ 'f' then some (c.toNat - 'a'.toNat + 10)
  else if 'A' ≤ c ∧ c ≤ 'F' then some (c.toNat - 'A'.toNat + 10)
  else none

def pushDigit (value : Nat) (c : Char) : Except IntErrorKind Nat :=
  match toDigit c with
  | none => .error .invalidDigit
  | some d => if value * 16 + d < 2 ^ 64 then .ok (value * 16 + d) else .error .posOverflow

/-- `u64::from_str_radix(s, 16)`. -/
def fromStrRadix : List Char → Except IntErrorKind UInt64
  | [] => .error .empty
  | ['+'] => .error .invalidDigit
  | '+' :: digits => (digits.foldlM pushDigit 0).map .ofNat
  | digits => (digits.foldlM pushDigit 0).map .ofNat

/-- Why a text is not a key. -/
inductive KeyError
  | malformedLine (line : List Char)
  | malformedTrans (rest : List Char)
  | unknownMemoryMode (mode : List Char)
  | unknownHeader (head : List Char)
  | invalidHash (text : List Char) (kind : IntErrorKind)
  | missing (header : String)
deriving Repr, DecidableEq

def parseHash (text : List Char) : Except KeyError ContentHash :=
  match fromStrRadix text with
  | .ok h => .ok h
  | .error kind => .error (.invalidHash text kind)

/-- What the lines so far say. -/
structure KeyLines where
  module_ : Option String
  defHash : Option ContentHash
  transitive : List (String × ContentHash)
  codegenFlags : Option String
  memoryMode : Option MemoryMode

namespace KeyLines

/-- The compiler of the line is not looked at. -/
def readEntry (l : KeyLines) (head rest : List Char) : Except KeyError KeyLines :=
  if head = "module".toList then .ok { l with module_ := some (String.ofList rest) }
  else if head = "def-hash".toList then do
    let h ← parseHash rest
    return { l with defHash := some h }
  else if head = "trans".toList then
    match splitOnce ' ' rest with
    | none => .error (.malformedTrans rest)
    | some (n, h) => do
      let h ← parseHash h
      return { l with transitive := l.transitive ++ [(String.ofList n, h)] }
  else if head = "compiler".toList then .ok l
  else if head = "codegen".toList then .ok { l with codegenFlags := some (String.ofList rest) }
  else if head = "memory".toList then
    if rest = "gc".toList then .ok { l with memoryMode := some .gc }
    else if rest = "nogc".toList then .ok { l with memoryMode := some .noGc }
    else .error (.unknownMemoryMode rest)
  else .error (.unknownHeader head)

def readLine (l : KeyLines) (line : List Char) : Except KeyError KeyLines :=
  let line := trim line
  if line = [] then .ok l
  else
    match splitOnce ' ' line with
    | none => .error (.malformedLine line)
    | some (head, rest) => l.readEntry head rest

def toKey (l : KeyLines) : Except KeyError CacheKey := do
  let module_ ← l.module_.elim (.error (.missing "module")) .ok
  let defHash ← l.defHash.elim (.error (.missing "def-hash")) .ok
  let codegenFlags ← l.codegenFlags.elim (.error (.missing "codegen")) .ok
  let memoryMode ← l.memoryMode.elim (.error (.missing "memory")) .ok
  return ⟨module_, defHash, l.transitive, compilerVersion, codegenFlags, memoryMode⟩

end KeyLines

def CacheKey.fromText (s : String) : Except KeyError CacheKey := do
  let l ← (lines s.toList).foldlM KeyLines.readLine ⟨none, none, [], none, none⟩
  l.toKey

/-! ## Hashes and their texts -/

@[simp] theorem length_hexDigits (k n : Nat) : (hexDigits k n).length = k := by
  induction k generalizing n with
  | zero => rfl
  | succ k ih => simp [hexDigits, ih]

theorem length_hashText (h : ContentHash) : (hashText h).length = 16 := by
  unfold hashText
  exact length_hexDigits 16 _

theorem digitChar_inj : ∀ a < 16, ∀ b < 16, Nat.digitChar a = Nat.digitChar b → a = b := by
  decide

theorem hexDigits_inj {k m n : Nat} (hm : m < 16 ^ k) (hn : n < 16 ^ k)
    (h : hexDigits k m = hexDigits k n) : m = n := by
  induction k generalizing m n with
  | zero =>
    rw [Nat.pow_zero] at hm hn
    omega
  | succ k ih =>
    rw [Nat.pow_succ] at hm hn
    obtain ⟨hinit, hlast⟩ := List.append_inj h (by simp)
    have hdiv : m / 16 = n / 16 := ih (by omega) (by omega) hinit
    have hmod : m % 16 = n % 16 :=
      digitChar_inj _ (Nat.mod_lt _ (by decide)) _ (Nat.mod_lt _ (by decide)) (List.head_eq_of_cons_eq hlast)
    omega

theorem hashText_inj {g h : ContentHash} (heq : hashText g = hashText h) : g = h := by
  unfold hashText at heq
  exact UInt64.toNat_inj.1 (hexDigits_inj g.toNat_lt h.toNat_lt heq)

/-! ## The text of a key -/

/-- A list up to a separator, which is not in it, and the rest. -/
theorem append_cons_inj {α : Type} {a : α} : ∀ {x₁ x₂ z₁ z₂ : List α}, a ∉ x₁ → a ∉ x₂ →
    x₁ ++ a :: z₁ = x₂ ++ a :: z₂ → x₁ = x₂ ∧ z₁ = z₂
  | [], [], _, _, _, _, h => ⟨rfl, List.tail_eq_of_cons_eq h⟩
  | [], _ :: _, _, _, _, h₂, h => absurd (List.head_eq_of_cons_eq h) (List.ne_of_not_mem_cons h₂)
  | _ :: _, [], _, _, h₁, _, h => absurd (List.head_eq_of_cons_eq h).symm (List.ne_of_not_mem_cons h₁)
  | c :: x₁, d :: x₂, _, _, h₁, h₂, h => by
    obtain ⟨hcd, hrest⟩ := List.cons_eq_cons.1 h
    obtain ⟨hx, hz⟩ := append_cons_inj (List.not_mem_of_not_mem_cons h₁)
      (List.not_mem_of_not_mem_cons h₂) hrest
    exact ⟨by rw [hcd, hx], hz⟩

theorem not_isWhitespace_of_ident (x : Ident) : ∀ c ∈ x.name.toList, ¬ isWhitespace c := by
  intro c hc hws
  rcases x.valid c hc with hvalid | rfl
  swap
  · exact absurd hws (by decide)
  unfold isWhitespace at hws
  unfold Char.isAlphanum Char.isAlpha Char.isUpper Char.isLower Char.isDigit at hvalid
  simp only [Bool.or_eq_true, Bool.and_eq_true, decide_eq_true_eq, ge_iff_le, UInt32.le_iff_toNat_le,
    Char.reduceVal, UInt32.reduceToNat] at hvalid hws
  have hval : c.val.toNat = c.toNat := rfl
  omega

namespace CacheKey

theorem transLine_append (t : String × ContentHash) (r : List Char) : transLine t ++ r =
    "trans ".toList ++ (t.1.toList ++ ' ' :: (hashText t.2 ++ '\n' :: r)) := by
  unfold transLine
  simp only [List.append_assoc, List.cons_append, List.nil_append]

theorem head?_transLine (t : String × ContentHash) (r : List Char) :
    (transLine t ++ r).head? = some 't' := by
  rw [transLine_append]
  rfl

/-- Without blanks in the names. -/
structure Plain (k : CacheKey) : Prop where
  module_ : ∀ c ∈ k.module_.toList, ¬ isWhitespace c
  names : ∀ t ∈ k.transitive, ∀ c ∈ t.1.toList, ¬ isWhitespace c

theorem not_mem_of_blank {c : Char} {s : List Char} (h : ∀ c ∈ s, ¬ isWhitespace c) (hc : isWhitespace c) :
    c ∉ s := fun hmem => h c hmem hc

/-- The lines of the imports end where the line of the compiler starts. -/
theorem transLines_inj {l₁ l₂ : List (String × ContentHash)} {r₁ r₂ : List Char}
    (hl₁ : ∀ t ∈ l₁, ∀ c ∈ t.1.toList, ¬ isWhitespace c) (hl₂ : ∀ t ∈ l₂, ∀ c ∈ t.1.toList, ¬ isWhitespace c)
    (h₁ : r₁.head? = some 'c') (h₂ : r₂.head? = some 'c')
    (h : l₁.flatMap transLine ++ r₁ = l₂.flatMap transLine ++ r₂) : l₁ = l₂ ∧ r₁ = r₂ := by
  have hne : ∀ {t : String × ContentHash} {l r r' : List Char}, r.head? = some 'c' →
      r ≠ transLine t ++ l ++ r' := by
    rintro t l r r' hr rfl
    rw [List.append_assoc, head?_transLine] at hr
    simp at hr
  induction l₁ generalizing l₂ with
  | nil =>
    rcases l₂ with _ | ⟨t, l⟩
    · exact ⟨rfl, h⟩
    · exact absurd h (hne h₁)
  | cons t₁ l₁ ih =>
    rcases l₂ with _ | ⟨t₂, l₂⟩
    · exact absurd h.symm (hne h₂)
    · obtain ⟨ht₁, hl₁⟩ := List.forall_mem_cons.1 hl₁
      obtain ⟨ht₂, hl₂⟩ := List.forall_mem_cons.1 hl₂
      rw [List.flatMap_cons, List.flatMap_cons, List.append_assoc, List.append_assoc, transLine_append,
        transLine_append] at h
      obtain ⟨hname, hrest⟩ := append_cons_inj (not_mem_of_blank ht₁ (by decide))
        (not_mem_of_blank ht₂ (by decide)) (List.append_cancel_left h)
      obtain ⟨hhash, hrest⟩ := List.append_inj hrest (by rw [length_hashText, length_hashText])
      obtain ⟨hl, hr⟩ := ih hl₁ hl₂ (List.tail_eq_of_cons_eq hrest)
      rw [Prod.ext (String.toList_inj.1 hname) (hashText_inj hhash), hl]
      exact ⟨rfl, hr⟩

/-- The text behind the lines of the imports. -/
def tail (k : CacheKey) : List Char :=
  "compiler ".toList ++ k.compilerVersion.toList ++ '\n' ::
    ("codegen ".toList ++ k.codegenFlags.toList ++ '\n' ::
    ("memory ".toList ++ k.memoryMode.asStr.toList ++ ['\n']))

theorem toText_eq (k : CacheKey) : k.toText.toList =
    "module ".toList ++ k.module_.toList ++ '\n' :: ("def-hash ".toList ++ hashText k.defHash ++ '\n' ::
      (k.transitive.flatMap transLine ++ k.tail)) := String.toList_ofList ..

theorem toText_inj {k₁ k₂ : CacheKey} (h₁ : k₁.Plain) (h₂ : k₂.Plain) (h : k₁.toText = k₂.toText) :
    k₁.module_ = k₂.module_ ∧ k₁.defHash = k₂.defHash ∧ k₁.transitive = k₂.transitive ∧
      k₁.tail = k₂.tail := by
  have htext := congrArg String.toList h
  rw [toText_eq, toText_eq] at htext
  simp only [List.append_assoc, List.append_cancel_left_eq] at htext
  obtain ⟨hname, hrest⟩ := append_cons_inj (not_mem_of_blank h₁.module_ (by decide))
    (not_mem_of_blank h₂.module_ (by decide)) htext
  obtain ⟨hhash, hrest⟩ := List.append_inj (List.append_cancel_left hrest)
    (by rw [length_hashText, length_hashText])
  obtain ⟨htrans, htail⟩ := transLines_inj h₁.names h₂.names rfl rfl (List.tail_eq_of_cons_eq hrest)
  exact ⟨String.toList_inj.1 hname, hashText_inj hhash, htrans, htail⟩

end CacheKey

/-! ## Reading the text of a key -/

theorem toDigit_digitChar : ∀ d < 16, toDigit (Nat.digitChar d) = some d := by
  decide

theorem foldlM_hexDigits (k : Nat) {n : Nat} (hn : n < 16 ^ k) (hk : 16 ^ k ≤ 2 ^ 64) :
    (hexDigits k n).foldlM pushDigit 0 = .ok n := by
  induction k generalizing n with
  | zero =>
    rw [Nat.pow_zero] at hn
    obtain rfl : n = 0 := by omega
    rfl
  | succ k ih =>
    rw [Nat.pow_succ] at hn hk
    have hdigit := toDigit_digitChar (n % 16) (Nat.mod_lt _ (by decide))
    have hsplit : n / 16 * 16 + n % 16 = n := by omega
    have hlt : n < 2 ^ 64 := by omega
    rw [hexDigits, List.foldlM_append, ih (by omega) (by omega)]
    simp only [bind, Except.bind, List.foldlM_cons, List.foldlM_nil, pushDigit, hdigit, hsplit, if_pos hlt]
    rfl

theorem digitChar_ne_plus : ∀ d < 16, Nat.digitChar d ≠ '+' := by
  decide

theorem not_isWhitespace_digitChar : ∀ d < 16, ¬ isWhitespace (Nat.digitChar d) := by
  decide

theorem exists_of_mem_hexDigits {k n : Nat} {c : Char} (h : c ∈ hexDigits k n) :
    ∃ d < 16, c = Nat.digitChar d := by
  induction k generalizing n with
  | zero => cases h
  | succ k ih =>
    rcases List.mem_append.1 h with h | h
    · exact ih h
    · exact ⟨n % 16, Nat.mod_lt _ (by decide), List.mem_singleton.1 h⟩

theorem exists_of_mem_hashText {h : ContentHash} {c : Char} (hc : c ∈ hashText h) :
    ∃ d < 16, c = Nat.digitChar d := by
  unfold hashText at hc
  exact exists_of_mem_hexDigits hc

theorem not_isWhitespace_hashText (h : ContentHash) : ∀ c ∈ hashText h, ¬ isWhitespace c := by
  intro c hc
  obtain ⟨d, hd, rfl⟩ := exists_of_mem_hashText hc
  exact not_isWhitespace_digitChar d hd

theorem parseHash_hashText (h : ContentHash) : parseHash (hashText h) = .ok h := by
  have hplus : '+' ∉ hashText h := by
    intro hmem
    obtain ⟨d, hd, heq⟩ := exists_of_mem_hashText hmem
    exact digitChar_ne_plus d hd heq.symm
  have hlen := length_hashText h
  have hfold : ((hashText h).foldlM pushDigit 0).map UInt64.ofNat = .ok h := by
    unfold hashText
    rw [foldlM_hexDigits 16 h.toNat_lt (by decide), Except.map, UInt64.ofNat_toNat]
  rcases htext : hashText h with - | ⟨c, digits⟩
  · rw [htext] at hlen
    cases hlen
  rw [htext] at hplus hfold
  have hradix : fromStrRadix (c :: digits) = .ok h := by
    unfold fromStrRadix
    split
    · rename_i heq
      cases heq
    · rename_i heq
      exact absurd (List.mem_singleton.2 rfl) (heq ▸ hplus)
    · rename_i heq
      exact absurd (List.mem_cons_self ..) (heq ▸ hplus)
    · exact hfold
  rw [parseHash, hradix]

namespace CacheKey

/-- A header without blanks and a text behind it that does not end in one. -/
structure Entry (head rest : List Char) : Prop where
  head_ne_nil : head ≠ []
  head : ∀ c ∈ head, ¬ isWhitespace c
  last : ∀ c ∈ rest.getLast?, ¬ isWhitespace c

theorem getLast?_entry (head : List Char) {rest : List Char} (hrest : rest ≠ []) :
    (head ++ ' ' :: rest).getLast? = rest.getLast? := by
  obtain ⟨c, rest, rfl⟩ := List.exists_cons_of_ne_nil hrest
  rw [List.getLast?_append, List.getLast?_cons_cons, List.getLast?_cons, Option.some_or]

theorem Entry.lines_append {head rest : List Char} (h : Entry head rest) (hrest : '\n' ∉ rest) (text : List Char) :
    lines (head ++ ' ' :: (rest ++ '\n' :: text)) = (head ++ ' ' :: rest) :: lines text := by
  have hassoc : head ++ ' ' :: (rest ++ '\n' :: text) = (head ++ ' ' :: rest) ++ '\n' :: text := by simp
  rw [hassoc]
  refine Text.lines_append ?_ ?_ text
  · rw [List.mem_append, List.mem_cons, not_or, not_or]
    exact ⟨not_mem_of_blank h.head (by decide), by decide, hrest⟩
  · by_cases hnil : rest = []
    · subst hnil
      rw [List.getLast?_append]
      simp
    · rw [getLast?_entry head hnil]
      exact fun hlast => h.last _ hlast (by decide)

theorem Entry.readLine {head rest : List Char} (h : Entry head rest) (hrest : rest ≠ []) (l : KeyLines) :
    l.readLine (head ++ ' ' :: rest) = l.readEntry head rest := by
  have hhead : ∀ c ∈ (head ++ ' ' :: rest).head?, ¬ isWhitespace c := by
    obtain ⟨c, head, rfl⟩ := List.exists_cons_of_ne_nil h.head_ne_nil
    intro d hd
    obtain rfl := Option.some.inj hd
    exact h.head c (List.mem_cons_self ..)
  have hlast : ∀ c ∈ (head ++ ' ' :: rest).getLast?, ¬ isWhitespace c := by
    rw [getLast?_entry head hrest]
    exact h.last
  have htrim := trim_eq_self hhead hlast
  have hsplit := splitOnce_append (not_mem_of_blank h.head (show isWhitespace ' ' by decide)) rest
  simp only [KeyLines.readLine, htrim, hsplit]
  rw [if_neg (by simp)]

/-- With nothing behind its header a line is malformed. -/
theorem Entry.readLine_nil {head : List Char} (h : Entry head []) (l : KeyLines) :
    l.readLine (head ++ [' ']) = .error (.malformedLine head) := by
  obtain ⟨c, tail, hcons⟩ := List.exists_cons_of_ne_nil h.head_ne_nil
  have hc : ¬ isWhitespace c := h.head c (hcons ▸ List.mem_cons_self ..)
  have hstart : trimStart (head ++ [' ']) = head ++ [' '] := by
    rw [hcons]
    exact List.dropWhile_cons_of_neg hc
  have hend : trimEnd head = head := by
    rw [trimEnd, List.rdropWhile_eq_self_iff]
    exact fun hne => h.head _ (List.getLast_mem hne)
  have htrim : Text.trim (head ++ [' ']) = head := by
    rw [Text.trim, hstart, trimEnd, List.rdropWhile_concat_pos _ _ _ (by decide)]
    exact hend
  have hsplit : splitOnce ' ' head = none :=
    splitOnce_eq_none (not_mem_of_blank h.head (by decide))
  simp only [KeyLines.readLine, htrim, if_neg h.head_ne_nil, hsplit]

/-- The keys in question: names without blanks, flags on one line that do not end in a blank. -/
structure Legible (k : CacheKey) : Prop extends k.Plain where
  compiler : k.compilerVersion = Loader.compilerVersion
  newline : '\n' ∉ k.codegenFlags.toList
  last : ∀ c ∈ k.codegenFlags.toList.getLast?, ¬ isWhitespace c

section legible
variable {k : CacheKey}

theorem entry_of_no_blank {head rest : List Char} (hne : head ≠ []) (hhead : ∀ c ∈ head, ¬ isWhitespace c)
    (hrest : ∀ c ∈ rest, ¬ isWhitespace c) : Entry head rest :=
  ⟨hne, hhead, fun c hc => hrest c (List.mem_of_getLast? hc)⟩

theorem not_isWhitespace_header : ∀ head ∈ ["module", "def-hash", "trans", "compiler", "codegen", "memory"],
    head.toList ≠ [] ∧ ∀ c ∈ head.toList, ¬ isWhitespace c := by
  have hall : ∀ head ∈ ["module", "def-hash", "trans", "compiler", "codegen", "memory"],
      head.toList ≠ [] ∧ (head.toList.all fun c => !isWhitespace c) = true := by decide
  exact fun head hmem => ⟨(hall head hmem).1, not_isWhitespace_of_all (hall head hmem).2⟩

theorem entry_module (h : k.Plain) : Entry "module".toList k.module_.toList := by
  obtain ⟨hne, hhead⟩ := not_isWhitespace_header "module" (by decide)
  exact entry_of_no_blank hne hhead h.module_

theorem entry_hash (h : ContentHash) : Entry "def-hash".toList (hashText h) := by
  obtain ⟨hne, hhead⟩ := not_isWhitespace_header "def-hash" (by decide)
  exact entry_of_no_blank hne hhead (not_isWhitespace_hashText h)

theorem hashText_ne_nil (h : ContentHash) : hashText h ≠ [] := by
  intro hnil
  have hlen := length_hashText h
  rw [hnil] at hlen
  cases hlen

theorem entry_trans (t : String × ContentHash) : Entry "trans".toList (t.1.toList ++ ' ' :: hashText t.2) := by
  obtain ⟨hne, hhead⟩ := not_isWhitespace_header "trans" (by decide)
  refine ⟨hne, hhead, fun c hc => ?_⟩
  rw [getLast?_entry _ (hashText_ne_nil t.2)] at hc
  exact not_isWhitespace_hashText t.2 c (List.mem_of_getLast? hc)

theorem entry_compiler (h : k.Legible) : Entry "compiler".toList k.compilerVersion.toList := by
  obtain ⟨hne, hhead⟩ := not_isWhitespace_header "compiler" (by decide)
  rw [h.compiler]
  exact entry_of_no_blank hne hhead (not_isWhitespace_of_all (by decide))

theorem entry_codegen (h : k.Legible) : Entry "codegen".toList k.codegenFlags.toList := by
  obtain ⟨hne, hhead⟩ := not_isWhitespace_header "codegen" (by decide)
  exact ⟨hne, hhead, h.last⟩

theorem entry_memory (mode : MemoryMode) : Entry "memory".toList mode.asStr.toList := by
  obtain ⟨hne, hhead⟩ := not_isWhitespace_header "memory" (by decide)
  exact entry_of_no_blank hne hhead (not_isWhitespace_of_all (by cases mode <;> decide))

/-- The line of an import. -/
def transEntry (t : String × ContentHash) : List Char := "trans".toList ++ ' ' :: (t.1.toList ++ ' ' :: hashText t.2)

theorem header_append {header head : List Char} (h : header = head ++ [' ']) (rest : List Char) :
    header ++ rest = head ++ ' ' :: rest := by
  rw [h, List.append_assoc, List.singleton_append]

theorem lines_transLines {l : List (String × ContentHash)} (hl : ∀ t ∈ l, ∀ c ∈ t.1.toList, ¬ isWhitespace c)
    (text : List Char) : lines (l.flatMap transLine ++ text) = l.map transEntry ++ lines text := by
  induction l with
  | nil => rfl
  | cons t l ih =>
    obtain ⟨ht, hl⟩ := List.forall_mem_cons.1 hl
    have hnewline : '\n' ∉ t.1.toList ++ ' ' :: hashText t.2 := by
      rw [List.mem_append, List.mem_cons, not_or, not_or]
      exact ⟨not_mem_of_blank ht (by decide), by decide,
        not_mem_of_blank (not_isWhitespace_hashText t.2) (by decide)⟩
    have hassoc (r : List Char) : t.1.toList ++ ' ' :: (hashText t.2 ++ '\n' :: r) =
        (t.1.toList ++ ' ' :: hashText t.2) ++ '\n' :: r := by
      rw [List.append_assoc, List.cons_append]
    rw [List.flatMap_cons, List.append_assoc, transLine_append, hassoc,
      header_append (show "trans ".toList = "trans".toList ++ [' '] by decide), (entry_trans t).lines_append hnewline, ih hl,
      List.map_cons, List.cons_append, transEntry]

theorem lines_tail (h : k.Legible) : lines k.tail = ["compiler".toList ++ ' ' :: k.compilerVersion.toList,
    "codegen".toList ++ ' ' :: k.codegenFlags.toList, "memory".toList ++ ' ' :: k.memoryMode.asStr.toList] := by
  have hversion : '\n' ∉ k.compilerVersion.toList := by
    simp [h.compiler, Loader.compilerVersion]
  have hmode : '\n' ∉ k.memoryMode.asStr.toList := by cases k.memoryMode <;> simp [MemoryMode.asStr]
  have hnil : lines [] = [] := rfl
  unfold tail
  rw [List.append_assoc, header_append (show "compiler ".toList = "compiler".toList ++ [' '] by decide),
    (entry_compiler h).lines_append hversion, List.append_assoc,
    header_append (show "codegen ".toList = "codegen".toList ++ [' '] by decide),
    (entry_codegen h).lines_append h.newline, List.append_assoc,
    header_append (show "memory ".toList = "memory".toList ++ [' '] by decide),
    (entry_memory k.memoryMode).lines_append hmode, hnil]

theorem lines_toText (h : k.Legible) : lines k.toText.toList =
    ("module".toList ++ ' ' :: k.module_.toList) :: ("def-hash".toList ++ ' ' :: hashText k.defHash) ::
      (k.transitive.map transEntry ++ ["compiler".toList ++ ' ' :: k.compilerVersion.toList,
        "codegen".toList ++ ' ' :: k.codegenFlags.toList, "memory".toList ++ ' ' :: k.memoryMode.asStr.toList]) := by
  rw [toText_eq, List.append_assoc, header_append (show "module ".toList = "module".toList ++ [' '] by decide),
    (entry_module h.toPlain).lines_append (not_mem_of_blank h.module_ (by decide)), List.append_assoc,
    header_append (show "def-hash ".toList = "def-hash".toList ++ [' '] by decide),
    (entry_hash _).lines_append (not_mem_of_blank (not_isWhitespace_hashText _) (by decide)),
    lines_transLines h.names, lines_tail h]

theorem foldlM_transEntry {l : List (String × ContentHash)} (hl : ∀ t ∈ l, ∀ c ∈ t.1.toList, ¬ isWhitespace c)
    (acc : KeyLines) : (l.map transEntry).foldlM KeyLines.readLine acc =
      .ok { acc with transitive := acc.transitive ++ l } := by
  induction l generalizing acc with
  | nil =>
    rw [List.append_nil]
    rfl
  | cons t l ih =>
    obtain ⟨ht, hl⟩ := List.forall_mem_cons.1 hl
    have hsplit := splitOnce_append (not_mem_of_blank ht (show isWhitespace ' ' by decide)) (hashText t.2)
    have hread : acc.readLine (transEntry t) = .ok { acc with transitive := acc.transitive ++ [t] } := by
      rw [transEntry, (entry_trans t).readLine (by simp), KeyLines.readEntry, if_neg (by decide),
        if_neg (by decide), if_pos rfl, hsplit]
      simp only [parseHash_hashText, bind, Except.bind, String.ofList_toList]
      rfl
    rw [List.map_cons, List.foldlM_cons, hread]
    simp only [bind, Except.bind]
    rw [ih hl]
    simp only [List.append_assoc, List.singleton_append]

theorem readLine_memory (l : KeyLines) (mode : MemoryMode) :
    l.readLine ("memory".toList ++ ' ' :: mode.asStr.toList) = .ok { l with memoryMode := some mode } := by
  have hmode : mode.asStr.toList ≠ [] := by cases mode <;> simp [MemoryMode.asStr]
  rw [(entry_memory mode).readLine hmode, KeyLines.readEntry, if_neg (by decide), if_neg (by decide),
    if_neg (by decide), if_neg (by decide), if_neg (by decide), if_pos rfl]
  cases mode
  · exact if_pos rfl
  · rw [if_neg (by simp [MemoryMode.asStr])]
    exact if_pos rfl

/-- What is read up to the line of the flags. -/
theorem fromText_eq (h : k.Legible) (hmodule : k.module_ ≠ "") : fromText k.toText =
    ((⟨some k.module_, some k.defHash, k.transitive, none, none⟩ : KeyLines).readLine
      ("codegen".toList ++ ' ' :: k.codegenFlags.toList)).bind fun l =>
        ({ l with memoryMode := some k.memoryMode } : KeyLines).toKey := by
  have hmodule : k.module_.toList ≠ [] := fun hnil => hmodule (String.toList_eq_nil_iff.1 hnil)
  have hversion : k.compilerVersion.toList ≠ [] := by
    simp [h.compiler, Loader.compilerVersion]
  have hread_module (l : KeyLines) : l.readLine ("module".toList ++ ' ' :: k.module_.toList) =
      .ok { l with module_ := some k.module_ } := by
    rw [(entry_module h.toPlain).readLine hmodule, KeyLines.readEntry, if_pos rfl, String.ofList_toList]
  have hread_hash (l : KeyLines) : l.readLine ("def-hash".toList ++ ' ' :: hashText k.defHash) =
      .ok { l with defHash := some k.defHash } := by
    rw [(entry_hash _).readLine (hashText_ne_nil _), KeyLines.readEntry, if_neg (by decide), if_pos rfl,
      parseHash_hashText]
    rfl
  have hread_compiler (l : KeyLines) : l.readLine ("compiler".toList ++ ' ' :: k.compilerVersion.toList) = .ok l := by
    rw [(entry_compiler h).readLine hversion, KeyLines.readEntry, if_neg (by decide), if_neg (by decide),
      if_neg (by decide), if_pos rfl]
  unfold fromText
  rw [lines_toText h, List.foldlM_cons, hread_module]
  simp only [bind, Except.bind]
  rw [List.foldlM_cons, hread_hash]
  simp only [bind, Except.bind]
  rw [List.foldlM_append, foldlM_transEntry h.names]
  simp only [bind, Except.bind, List.nil_append]
  rw [List.foldlM_cons, hread_compiler]
  simp only [bind, Except.bind]
  rw [List.foldlM_cons]
  simp only [bind, Except.bind]
  rcases KeyLines.readLine _ ("codegen".toList ++ ' ' :: k.codegenFlags.toList) with e | l
  · rfl
  · simp only [List.foldlM_cons, List.foldlM_nil, bind, Except.bind, readLine_memory, pure, Except.pure]

theorem fromText_toText (h : k.Legible) (hmodule : k.module_ ≠ "") (hflags : k.codegenFlags ≠ "") :
    fromText k.toText = .ok k := by
  have hflags : k.codegenFlags.toList ≠ [] := fun hnil => hflags (String.toList_eq_nil_iff.1 hnil)
  rw [fromText_eq h hmodule, (entry_codegen h).readLine hflags, KeyLines.readEntry, if_neg (by decide),
    if_neg (by decide), if_neg (by decide), if_neg (by decide), if_pos rfl, String.ofList_toList]
  have hcompiler := h.compiler
  obtain ⟨_, _, _, _, _, _⟩ := k
  subst hcompiler
  rfl

theorem fromText_of_module (h : k.Legible) (hmodule : k.module_ = "") :
    fromText k.toText = .error (.malformedLine "module".toList) := by
  have hentry := entry_module h.toPlain
  rw [show k.module_.toList = [] by rw [hmodule]; rfl] at hentry
  unfold fromText
  rw [lines_toText h, List.foldlM_cons, show k.module_.toList = [] by rw [hmodule]; rfl, hentry.readLine_nil]
  rfl

theorem fromText_of_codegenFlags (h : k.Legible) (hmodule : k.module_ ≠ "") (hflags : k.codegenFlags = "") :
    fromText k.toText = .error (.malformedLine "codegen".toList) := by
  have hentry := entry_codegen h
  rw [show k.codegenFlags.toList = [] by rw [hflags]; rfl] at hentry
  rw [fromText_eq h hmodule, show k.codegenFlags.toList = [] by rw [hflags]; rfl, hentry.readLine_nil]
  rfl

theorem asStr_inj : ∀ m₁ m₂ : MemoryMode, m₁.asStr = m₂.asStr → m₁ = m₂ := by
  rintro (_ | _) (_ | _) heq
  · rfl
  · simp [MemoryMode.asStr] at heq
  · simp [MemoryMode.asStr] at heq
  · rfl

theorem eq_of_toText {k₁ k₂ : CacheKey} (h₁ : k₁.Legible) (h₂ : k₂.Legible) (h : k₁.toText = k₂.toText) :
    k₁ = k₂ := by
  obtain ⟨hmodule, hhash, htrans, htail⟩ := toText_inj h₁.toPlain h₂.toPlain h
  have hcompiler : k₁.compilerVersion = k₂.compilerVersion := h₁.compiler.trans h₂.compiler.symm
  unfold tail at htail
  rw [hcompiler] at htail
  have hrest := List.tail_eq_of_cons_eq (List.append_cancel_left htail)
  simp only [List.append_assoc] at hrest
  obtain ⟨hflags, hrest⟩ := append_cons_inj h₁.newline h₂.newline (List.append_cancel_left hrest)
  have hmode := List.append_cancel_right (List.append_cancel_left hrest)
  have hflags := String.toList_inj.1 hflags
  have hmode := asStr_inj _ _ (String.toList_inj.1 hmode)
  obtain ⟨_, _, _, _, _, _⟩ := k₁
  obtain ⟨_, _, _, _, _, _⟩ := k₂
  rw [CacheKey.mk.injEq]
  exact ⟨hmodule, hhash, htrans, hcompiler, hflags, hmode⟩

/-- A key is read back from its text unless its module or its flags are empty; either way no other key has
its text. -/
theorem text_round_trip (h : k.Legible) :
    (fromText k.toText = .ok k ↔ k.module_ ≠ "" ∧ k.codegenFlags ≠ "") ∧
      ∀ k' : CacheKey, k'.Legible → k'.toText = k.toText → k' = k := by
  refine ⟨⟨fun hread => ?_, fun ⟨hmodule, hflags⟩ => fromText_toText h hmodule hflags⟩,
    fun k' h' => eq_of_toText h' h⟩
  by_cases hmodule : k.module_ = ""
  · rw [fromText_of_module h hmodule] at hread
    cases hread
  by_cases hflags : k.codegenFlags = ""
  · rw [fromText_of_codegenFlags h hmodule hflags] at hread
    cases hread
  exact ⟨hmodule, hflags⟩

end legible

/-- A key of a module that imports another one. -/
def sampleKey (codegenFlags : String) : CacheKey where
  module_ := "Foo"
  defHash := 0x0123456789abcdef
  transitive := [("Bar", 0xfedc)]
  compilerVersion := Loader.compilerVersion
  codegenFlags := codegenFlags
  memoryMode := .gc

theorem legible_sampleKey {codegenFlags : String} (hnewline : '\n' ∉ codegenFlags.toList)
    (hlast : ∀ c ∈ codegenFlags.toList.getLast?, ¬ isWhitespace c) : (sampleKey codegenFlags).Legible where
  module_ := by
    have hall : ("Foo".toList.all fun c => !isWhitespace c) = true := by decide
    exact not_isWhitespace_of_all hall
  names := by
    intro t ht
    obtain rfl := List.mem_singleton.1 ht
    have hall : ("Bar".toList.all fun c => !isWhitespace c) = true := by decide
    exact not_isWhitespace_of_all hall
  compiler := rfl
  newline := hnewline
  last := hlast

theorem text_round_trip_optimised : (sampleKey "-O2").Legible ∧ fromText (sampleKey "-O2").toText = .ok (sampleKey "-O2") := by
  have h : (sampleKey "-O2").Legible := by
    refine legible_sampleKey (by simp) fun c hc => ?_
    obtain rfl : '2' = c := Option.some.inj hc
    decide
  exact ⟨h, (text_round_trip h).1.2 ⟨by simp [sampleKey], by simp [sampleKey]⟩⟩

/-- Without flags a key is written that is not read back. -/
theorem text_round_trip_differs : (sampleKey "").Legible ∧
    fromText (sampleKey "").toText = .error (.malformedLine "codegen".toList) := by
  have h : (sampleKey "").Legible := by
    refine legible_sampleKey (by simp) fun c hc => ?_
    cases hc
  exact ⟨h, fromText_of_codegenFlags h (by simp [sampleKey]) rfl⟩

end CacheKey

end NewM2.Loader
