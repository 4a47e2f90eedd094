import NewM2.Lib.SortedTable
import NewM2.Lib.Text
import Mathlib.Data.String.Basic

/-! # The finder of the Win32 definitions (`newm2-loader/src/win32_finder.rs`, `build.rs`)

The modules of the generated files and what they export share one table. `Win32Finder.find_module`: a module is
found where it is declared just when no file before it exports its name. -/

namespace NewM2.Loader
open Text SortedTable

/-! ## Scanning a file -/

/-- `trim_end_matches` of a text; at most `k` times. -/
def trimEndMatches (suf : List Char) : Nat → List Char → List Char
  | 0, text => text
  | k + 1, text =>
    if suf.isSuffixOf text then trimEndMatches suf k (text.take (text.length - suf.length)) else text

/-- `DEFINITION MODULE <name>;` -/
def scanModuleName (text : String) : Option String :=
  (lines text.toList).findSome? fun line =>
    (stripPrefix "DEFINITION MODULE ".toList (trimStart line)).map fun rest =>
      String.ofList (trim (rest.rdropWhile (· = ';')))

section scan
variable (isAlphanumeric : Char → Bool)

def takeIdent (s : List Char) : Option (List Char) :=
  let ident := s.takeWhile fun c => isAlphanumeric c || c = '_'
  if ident = [] then none else some ident

/-- `PROCEDURE X…`, or four blanks and `X = …`. -/
def exportedName (line : List Char) : Option String :=
  match stripPrefix "PROCEDURE ".toList line with
  | some rest => (takeIdent isAlphanumeric rest).map .ofList
  | none =>
    match stripPrefix "    ".toList line with
    | none => none
    | some rest =>
      if rest.head? = some ' ' then none
      else
        match takeIdent isAlphanumeric rest with
        | none => none
        | some name =>
          if (trimStart (rest.drop name.length)).head? = some '=' then some (.ofList name) else none

def scanExportedNames (text : String) : List String :=
  (lines text.toList).filterMap (exportedName isAlphanumeric)

end scan

/-! ## The tree and its index -/

structure DefFile where
  /-- In its directory. -/
  fileName : String
  text : String
deriving Repr, DecidableEq

namespace DefFile
variable (f : DefFile)

def isTypesDef : Bool := "_types.def".toList.isSuffixOf f.fileName.toList

/-- Without `.def` and `_types`. -/
def stem : String :=
  let stem := f.fileName.toList.take (f.fileName.length - ".def".length)
  .ofList (trimEndMatches "_types".toList stem.length stem)

def moduleName : String := (scanModuleName f.text).getD f.stem

def rel : String := .ofList (f.fileName.toList.map fun c => if c = '\\' then '/' else c)

/-- What the file is found by: its module and what it exports. -/
def keys (isAlphanumeric : Char → Bool) : List String := f.moduleName :: scanExportedNames isAlphanumeric f.text

end DefFile

/-- The files of a directory, as they are listed. -/
structure DefTree where
  files : List DefFile
  nodup : (files.map (·.fileName)).Nodup
  plain : ∀ f ∈ files, '\\' ∉ f.fileName.toList

/-- The files that are indexed, by their paths. -/
def DefTree.defFiles (t : DefTree) : List DefFile :=
  (t.files.filter (·.isTypesDef)).mergeSort fun f g => decide (f.fileName ≤ g.fileName)

structure Win32Finder where
  /-- Modules and paths. -/
  defs : List (String × String)
  /-- Names and indices of `defs`. -/
  names : List (String × UInt32)

section finder
variable (isAlphanumeric : Char → Bool)

def defEntries (defFiles : List DefFile) : List (String × UInt32) :=
  defFiles.zipIdx.flatMap fun d => (d.1.keys isAlphanumeric).map fun key => (key, UInt32.ofNat d.2)

def buildWin32Finder (t : DefTree) : Win32Finder where
  defs := t.defFiles.map fun f => (f.moduleName, f.rel)
  names := table (defEntries isAlphanumeric t.defFiles)

/-- The path of the file that a name leads to. -/
def Win32Finder.find (finder : Win32Finder) (name : String) : Option String := do
  let di ← lookup finder.names name
  let d ← finder.defs[di.toNat]?
  return d.2

end finder

/-! ## What is found -/

theorem DefFile.rel_eq {f : DefFile} (h : '\\' ∉ f.fileName.toList) : f.rel = f.fileName := by
  have hmap : (f.fileName.toList.map fun c => if c = '\\' then '/' else c) = f.fileName.toList := by
    refine (List.map_congr_left fun c hc => if_neg ?_).trans (List.map_id _)
    rintro rfl
    exact h hc
  rw [rel, hmap, String.ofList_toList]

theorem DefTree.mem_defFiles {t : DefTree} {f : DefFile} :
    f ∈ t.defFiles ↔ f ∈ t.files ∧ f.isTypesDef := by
  rw [defFiles, List.mem_mergeSort, List.mem_filter]

theorem DefTree.eq_of_fileName {t : DefTree} {f g : DefFile} (hf : f ∈ t.files) (hg : g ∈ t.files)
    (h : f.fileName = g.fileName) : f = g := List.inj_on_of_nodup_map t.nodup hf hg h

section find
variable {isAlphanumeric : Char → Bool} {name : String}

theorem find?_keys (f : DefFile) (di : UInt32) : (((f.keys isAlphanumeric).map fun key => (key, di)).find? (·.1 = name)) =
    if name ∈ f.keys isAlphanumeric then some (name, di) else none := by
  split
  · next hmem =>
    have hsome : (((f.keys isAlphanumeric).map fun key => (key, di)).find? (·.1 = name)).isSome :=
      List.find?_isSome.2 ⟨(name, di), List.mem_map_of_mem hmem, decide_eq_true rfl⟩
    obtain ⟨e, he⟩ := Option.isSome_iff_exists.1 hsome
    obtain ⟨key, -, rfl⟩ := List.mem_map.1 (List.mem_of_find?_eq_some he)
    obtain rfl : key = name := by simpa using List.find?_some he
    exact he
  · next hmem =>
    rw [List.find?_eq_none]
    intro e he
    obtain ⟨key, hkey, rfl⟩ := List.mem_map.1 he
    simpa using fun heq : key = name => hmem (heq ▸ hkey)

/-- The first file that has the name stands for it. -/
theorem find?_defEntries (defFiles : List DefFile) (i : Nat) :
    ((defFiles.zipIdx i).flatMap fun d => (d.1.keys isAlphanumeric).map fun key =>
      (key, UInt32.ofNat d.2)).find? (·.1 = name) =
      (defFiles.findIdx? fun f => name ∈ f.keys isAlphanumeric).map fun j => (name, UInt32.ofNat (i + j)) := by
  induction defFiles generalizing i with
  | nil => rfl
  | cons f defFiles ih =>
    rw [List.zipIdx_cons, List.flatMap_cons, List.find?_append, ih, find?_keys, List.findIdx?_cons]
    by_cases hmem : name ∈ f.keys isAlphanumeric
    · rw [if_pos hmem, if_pos (decide_eq_true hmem)]
      rfl
    · rw [if_neg hmem, if_neg (by simpa using hmem), Option.none_or, Option.map_map]
      refine congrArg (Option.map · _) (funext fun j => ?_)
      rw [Function.comp_apply, Nat.add_right_comm, Nat.add_assoc]

theorem find_eq (t : DefTree) (name : String) : (buildWin32Finder isAlphanumeric t).find name =
    ((t.defFiles.findIdx? fun f => name ∈ f.keys isAlphanumeric).bind fun i => t.defFiles[i % 2 ^ 32]?).map (·.rel) := by
  have hlookup : lookup (buildWin32Finder isAlphanumeric t).names name =
      (t.defFiles.findIdx? fun f => name ∈ f.keys isAlphanumeric).map UInt32.ofNat := by
    rw [buildWin32Finder, lookup_table, defEntries, find?_defEntries, Option.map_map]
    refine congrArg (Option.map · _) (funext fun j => ?_)
    rw [Function.comp_apply, Nat.zero_add]
  rw [Win32Finder.find, hlookup]
  generalize (t.defFiles.findIdx? fun f => name ∈ f.keys isAlphanumeric) = first
  cases first with
  | none => rfl
  | some i =>
    simp only [Option.map_some, bind, Option.bind, buildWin32Finder, List.getElem?_map, UInt32.toNat_ofNat', pure]
    cases t.defFiles[i % 2 ^ 32]? <;> rfl

/-- A module is found where it is declared just when the first file that has its name declares it; an index
is kept up to `2 ^ 32`. -/
theorem find_module (t : DefTree) (name : String) :
    (∃ f ∈ t.defFiles, f.moduleName = name ∧ (buildWin32Finder isAlphanumeric t).find name = some f.fileName) ↔
      ∃ l g r f, t.defFiles = l ++ g :: r ∧ name ∈ g.keys isAlphanumeric ∧
        (∀ e ∈ l, name ∉ e.keys isAlphanumeric) ∧ t.defFiles[l.length % 2 ^ 32]? = some f ∧ f.moduleName = name := by
  have hfile {f : DefFile} (hf : f ∈ t.defFiles) : f.rel = f.fileName :=
    DefFile.rel_eq (t.plain f (DefTree.mem_defFiles.1 hf).1)
  rw [find_eq]
  constructor
  · rintro ⟨f, hf, hname, hfind⟩
    obtain ⟨f', hf', hrel⟩ := Option.map_eq_some_iff.1 hfind
    obtain ⟨i, hi, hidx⟩ := Option.bind_eq_some_iff.1 hf'
    have hmem' := List.mem_of_getElem? hidx
    rw [hfile hmem'] at hrel
    obtain rfl : f' = f :=
      DefTree.eq_of_fileName (DefTree.mem_defFiles.1 hmem').1 (DefTree.mem_defFiles.1 hf).1 hrel
    obtain ⟨hlt, hmem, hbefore⟩ := List.findIdx?_eq_some_iff_getElem.1 hi
    refine ⟨t.defFiles.take i, t.defFiles[i], t.defFiles.drop (i + 1), f', ?_, of_decide_eq_true hmem, ?_, ?_, hname⟩
    · rw [← List.drop_eq_getElem_cons hlt, List.take_append_drop]
    · intro e he
      obtain ⟨j, hj, rfl⟩ := List.mem_take_iff_getElem.1 he
      exact fun hkey => hbefore j (by omega) (decide_eq_true hkey)
    · rw [List.length_take_of_le hlt.le]
      exact hidx
  · rintro ⟨l, g, r, f, heq, hmem, hbefore, hidx, hname⟩
    have hf := List.mem_of_getElem? hidx
    refine ⟨f, hf, hname, ?_⟩
    have hfirst : (t.defFiles.findIdx? fun f => name ∈ f.keys isAlphanumeric) = some l.length := by
      have hnone : (l.findIdx? fun f => name ∈ f.keys isAlphanumeric) = none :=
        List.findIdx?_eq_none_iff.2 fun e he => decide_eq_false (hbefore e he)
      rw [heq, List.findIdx?_append, hnone, Option.none_or, List.findIdx?_cons, if_pos (decide_eq_true hmem),
        Option.map_some, Nat.zero_add]
    rw [hfirst, Option.bind_some, hidx, Option.map_some, hfile hf]

end find

/-- A module that exports a constant `WIN32`. -/
def oleFile : DefFile :=
  ⟨"System_Ole_types.def", "DEFINITION MODULE System_Ole;\nCONST\n    WIN32 = 100;\nEND System_Ole.\n"⟩

def win32File : DefFile :=
  ⟨"WIN32_types.def", "DEFINITION MODULE WIN32;\nTYPE\n    HANDLE = ADDRESS;\nEND WIN32.\n"⟩

def oleTree : DefTree where
  files := [oleFile, win32File]
  nodup := by simp [oleFile, win32File]
  plain := by simp [oleFile, win32File]

theorem defFiles_oleTree : oleTree.defFiles = [oleFile, win32File] := by
  have hfilter : oleTree.files.filter (·.isTypesDef) = [oleFile, win32File] := by
    have hole : oleFile.isTypesDef := by simp [oleFile, DefFile.isTypesDef, List.isSuffixOf]
    have hwin : win32File.isTypesDef := by simp [win32File, DefFile.isTypesDef, List.isSuffixOf]
    simp [oleTree, hole, hwin]
  rw [DefTree.defFiles, hfilter]
  refine List.mergeSort_of_pairwise (List.pairwise_pair.2 (decide_eq_true ?_))
  simp [oleFile, win32File]

/-- `WIN32` leads to the module that exports the constant. -/
theorem find_module_differs : (∃ f ∈ oleTree.defFiles, f.moduleName = "WIN32") ∧
    ¬ ∃ f ∈ oleTree.defFiles, f.moduleName = "WIN32" ∧
      (buildWin32Finder Char.isAlphanum oleTree).find "WIN32" = some f.fileName := by
  have hfind : (buildWin32Finder Char.isAlphanum oleTree).find "WIN32" = some "System_Ole_types.def" := by
    rw [find_eq, defFiles_oleTree]
    decide +kernel
  rw [hfind, defFiles_oleTree]
  decide +kernel

end NewM2.Loader
