import Mathlib.Data.List.DropRight
import Mathlib.Tactic.Common

/-! # Texts as lists of characters -/

namespace NewM2.Text

/-- The property `White_Space`. -/
def isWhitespace (c : Char) : Bool :=
  9 ≤ c.toNat && c.toNat ≤ 13 || c.toNat = 0x20 || c.toNat = 0x85 || c.toNat = 0xA0 ||
    c.toNat = 0x1680 || 0x2000 ≤ c.toNat && c.toNat ≤ 0x200A || c.toNat = 0x2028 ||
    c.toNat = 0x2029 || c.toNat = 0x202F || c.toNat = 0x205F || c.toNat = 0x3000

def trimStart (text : List Char) : List Char := text.dropWhile isWhitespace

def trimEnd (text : List Char) : List Char := text.rdropWhile isWhitespace

def trim (text : List Char) : List Char := trimEnd (trimStart text)

def stripPrefix (pre text : List Char) : Option (List Char) :=
  if pre.isPrefixOf text then some (text.drop pre.length) else none

/-- What stands before the first `c` and behind it. -/
def splitOnce (c : Char) (text : List Char) : Option (List Char × List Char) :=
  match text.dropWhile (· != c) with
  | [] => none
  | _ :: rest => some (text.takeWhile (· != c), rest)

/-- A line ends with a newline or with a return and a newline. -/
def endLine (line : List Char) : List Char := if line.getLast? = some '\r' then line.dropLast else line

/-- The lines of a text, the first of which begins with `line`. -/
def linesFrom (line : List Char) : List Char → List (List Char)
  | [] => if line = [] then [] else [line]
  | c :: text => if c = '\n' then endLine line :: linesFrom [] text else linesFrom (line ++ [c]) text

def lines (text : List Char) : List (List Char) := linesFrom [] text

section text
variable {c : Char} {line text rest : List Char}

/-- The texts of which this is known by evaluation. -/
theorem not_isWhitespace_of_all (h : (text.all fun c => !isWhitespace c) = true) : ∀ c ∈ text, ¬ isWhitespace c := by
  intro c hc
  simpa using List.all_eq_true.1 h c hc

theorem trim_eq_self (hhead : ∀ c ∈ text.head?, ¬ isWhitespace c) (hlast : ∀ c ∈ text.getLast?, ¬ isWhitespace c) :
    trim text = text := by
  have hstart : trimStart text = text := by
    rcases text with - | ⟨c, text⟩
    · rfl
    · exact List.dropWhile_cons_of_neg (hhead c rfl)
  rw [trim, hstart, trimEnd, List.rdropWhile_eq_self_iff]
  exact fun hne => hlast _ (List.getLast?_eq_some_getLast hne)

theorem trim_trim (text : List Char) : trim (trim text) = trim text := by
  refine trim_eq_self (fun c hc hws => ?_) (fun c hc hws => ?_)
  · obtain ⟨d, rest, hstart⟩ : ∃ d rest, trimStart text = d :: rest := by
      refine List.exists_cons_of_ne_nil fun hnil => ?_
      rw [trim, hnil] at hc
      cases hc
    have hd : ¬ isWhitespace d := by
      have hhead := List.head?_dropWhile_not isWhitespace text
      rw [← trimStart, hstart] at hhead
      simpa using hhead
    obtain ⟨tail, htail⟩ : trim text <+: d :: rest := hstart ▸ List.rdropWhile_prefix isWhitespace _
    obtain ⟨init, hinit⟩ : ∃ init, trim text = c :: init := List.head?_eq_some_iff.1 hc
    rw [hinit, List.cons_append, List.cons.injEq] at htail
    exact hd (htail.1 ▸ hws)
  · have hne : trim text ≠ [] := fun hnil => by
      rw [hnil] at hc
      cases hc
    have hlast : ¬ isWhitespace ((trim text).getLast hne) := List.rdropWhile_last_not isWhitespace _ hne
    rw [(List.getLast_eq_iff_getLast?_eq_some hne).2 hc] at hlast
    exact hlast hws

theorem splitOnce_append (hline : c ∉ line) (rest : List Char) :
    splitOnce c (line ++ c :: rest) = some (line, rest) := by
  have hne : ∀ d ∈ line, (d != c) = true := fun d hd => bne_iff_ne.2 (ne_of_mem_of_not_mem hd hline)
  have hdrop : (line ++ c :: rest).dropWhile (· != c) = c :: rest := by
    rw [List.dropWhile_append_of_pos hne, List.dropWhile_cons_of_neg (by simp)]
  have htake : (line ++ c :: rest).takeWhile (· != c) = line := by
    rw [List.takeWhile_append_of_pos hne, List.takeWhile_cons_of_neg (by simp), List.append_nil]
  rw [splitOnce, hdrop, htake]

theorem splitOnce_eq_none (h : c ∉ text) : splitOnce c text = none := by
  have hne : ∀ d ∈ text, (d != c) = true := fun d hd => bne_iff_ne.2 (ne_of_mem_of_not_mem hd h)
  have hdrop : text.dropWhile (· != c) = [] := List.dropWhile_eq_nil_iff.2 hne
  rw [splitOnce, hdrop]

theorem linesFrom_append (hline : '\n' ∉ line) (init text : List Char) :
    linesFrom init (line ++ '\n' :: text) = endLine (init ++ line) :: lines text := by
  induction line generalizing init with
  | nil => rw [List.nil_append, linesFrom, if_pos rfl, List.append_nil, lines]
  | cons c line ih =>
    obtain ⟨hc, hline⟩ := List.ne_and_not_mem_of_not_mem_cons hline
    rw [List.cons_append, linesFrom, if_neg hc.symm, ih hline, List.append_assoc, List.singleton_append]

theorem lines_append (hline : '\n' ∉ line) (hreturn : line.getLast? ≠ some '\r') (text : List Char) :
    lines (line ++ '\n' :: text) = line :: lines text := by
  rw [lines, linesFrom_append hline, List.nil_append, endLine, if_neg hreturn]

end text

end NewM2.Text
