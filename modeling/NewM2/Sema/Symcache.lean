import NewM2.Loader.Graph

/-! # The symbol cache (`newm2-sema/src/symcache.rs`)

The key of a module has the hashes of its DEF and of the DEFs its imports lead to. What the loader parses
depends on the environment and on the IMPLs too. -/

namespace NewM2.Sema
open Lexer Loader

variable {Ast : Type} {n : Nat}

structure CacheConfig where
  codegenFlags : String
  memoryMode : MemoryMode

/-- `cache_config` of the driver. -/
def cacheConfig : CacheConfig := ⟨"", .gc⟩

section key
variable (g : ModuleGraph Ast n)

/-- The modules that the imports of `i` lead to. -/
def importClosure (i : Fin n) : List (Fin n) := closure g.importsOf (g.importsOf i)

def transitive (i : Fin n) : List (Ident × ContentHash) :=
  ((importClosure g i).reverse.filterMap fun j =>
    (g.modules j).defHash.map fun h => ((g.modules j).name, h)).mergeSort
    fun a b => decide (a.1.name < b.1.name) || a.1.name == b.1.name && decide (a.2 ≤ b.2)

def cacheKey (i : Fin n) (cfg : CacheConfig) : Option CacheKey :=
  if (g.modules i).isIntrinsic then none
  else (g.modules i).defHash.map fun defHash =>
    ⟨(g.modules i).name.name, defHash, (transitive g i).map fun t => (t.1.name, t.2), compilerVersion,
      cfg.codegenFlags, cfg.memoryMode⟩

/-- What is parsed of the modules that `i` leads to, by name. -/
def visible (i : Fin n) (name : Ident) : Option (Option Ast × Option Ast) :=
  ((i :: importClosure g i).find? fun j => (g.modules j).name = name).map fun j =>
    ((g.modules j).defAst, (g.modules j).implAst)

end key

/-- A graph, what it was loaded from, and in which environment. -/
structure Compilation (F : FrontEnd Ast) (n : Nat) where
  graph : ModuleGraph Ast n
  env : Env
  loaded : graph.Loaded F env
  cfg : CacheConfig

namespace Compilation
variable {F : FrontEnd Ast} {m : Nat} (C : Compilation F n) (D : Compilation F m)

def keyText (i : Fin n) : Option String := (cacheKey C.graph i C.cfg).map CacheKey.toText

def name (i : Fin n) : Ident := (C.graph.modules i).name

/-- What the DEF and the IMPL of a module say in the environment of the compilation. -/
def sources (i : Fin n) : Option (Except String Ast) × Option (Except String Ast) :=
  ((C.loaded.defFile i).map (parseBytesWithEnv F C.env),
    (C.loaded.implFile i).map (parseBytesWithEnv F C.env))

/-- Where modules that `i` and `j` lead to have one name and DEFs with one hash, their sources say the
same. -/
def SameSources (i : Fin n) (j : Fin m) : Prop :=
  ∀ a ∈ i :: importClosure C.graph i, ∀ b ∈ j :: importClosure D.graph j, C.name a = D.name b →
    (C.loaded.defFile a).map hashSource = (D.loaded.defFile b).map hashSource → C.sources a = D.sources b

end Compilation

/-! ## What equal keys say -/

section key
variable (g : ModuleGraph Ast n)

theorem mem_importClosure {i j : Fin n} :
    j ∈ importClosure g i ↔ ∃ k ∈ g.importsOf i, Reaches g.importsOf k j := mem_closure

theorem mem_importClosure_of_import {i j k : Fin n} (hj : j ∈ i :: importClosure g i)
    (hk : k ∈ g.importsOf j) : k ∈ importClosure g i := by
  rcases List.mem_cons.1 hj with rfl | hj
  · exact (mem_importClosure g).2 ⟨k, hk, .refl⟩
  · obtain ⟨l, hl, hreach⟩ := (mem_importClosure g).1 hj
    exact (mem_importClosure g).2 ⟨l, hl, hreach.tail hk⟩

theorem mem_transitive {i : Fin n} {t : Ident × ContentHash} : t ∈ transitive g i ↔
    ∃ j ∈ importClosure g i, (g.modules j).name = t.1 ∧ (g.modules j).defHash = some t.2 := by
  unfold transitive
  rw [List.mem_mergeSort, List.mem_filterMap]
  constructor
  · rintro ⟨j, hj, ht⟩
    obtain ⟨h, hh, rfl⟩ := Option.map_eq_some_iff.1 ht
    exact ⟨j, List.mem_reverse.1 hj, rfl, hh⟩
  · rintro ⟨j, hj, hname, hhash⟩
    exact ⟨j, List.mem_reverse.2 hj, Option.map_eq_some_iff.2 ⟨t.2, hhash, Prod.ext hname rfl⟩⟩

theorem visible_eq_some {i j : Fin n} (hj : j ∈ i :: importClosure g i) :
    visible g i (g.modules j).name = some ((g.modules j).defAst, (g.modules j).implAst) := by
  unfold visible
  have hsome : ((i :: importClosure g i).find? fun k => (g.modules k).name = (g.modules j).name).isSome :=
    List.find?_isSome.2 ⟨j, hj, decide_eq_true rfl⟩
  obtain ⟨k, hk⟩ := Option.isSome_iff_exists.1 hsome
  have hname : (g.modules k).name = (g.modules j).name := by simpa using List.find?_some hk
  rw [hk, Option.map_some, g.name_inj hname]

theorem visible_eq_none {i : Fin n} {name : Ident}
    (h : ∀ j ∈ i :: importClosure g i, (g.modules j).name ≠ name) : visible g i name = none := by
  unfold visible
  rw [Option.map_eq_none_iff, List.find?_eq_none]
  exact fun j hj => by simpa using h j hj

end key

namespace Compilation
variable {F : FrontEnd Ast} {m : Nat} {C : Compilation F n} {D : Compilation F m} {i a : Fin n} {j b : Fin m}

/-- A name of the graph and its hash, as the key has them. -/
def entry (t : Ident × ContentHash) : String × ContentHash := (t.1.name, t.2)

theorem entry_injective : Function.Injective entry := by
  rintro ⟨x, g⟩ ⟨y, h⟩ heq
  obtain ⟨hname, hhash⟩ := Prod.ext_iff.1 heq
  exact Prod.ext (Ident.ext hname) hhash

theorem keyText_eq_some {t : String} (h : C.keyText i = some t) :
    ∃ key : CacheKey, key.Plain ∧ key.toText = t ∧ key.module_ = (C.name i).name ∧
      (C.graph.modules i).defHash = some key.defHash ∧
      key.transitive = (transitive C.graph i).map entry := by
  obtain ⟨key, hkey, rfl⟩ := Option.map_eq_some_iff.1 h
  unfold cacheKey at hkey
  split at hkey
  · cases hkey
  · obtain ⟨hash, hhash, rfl⟩ := Option.map_eq_some_iff.1 hkey
    refine ⟨_, ⟨not_isWhitespace_of_ident _, fun t ht => ?_⟩, rfl, rfl, hhash, rfl⟩
    obtain ⟨t, -, rfl⟩ := List.mem_map.1 ht
    exact not_isWhitespace_of_ident _

/-- Equal keys name one module, with one hash and one list of imports. -/
theorem eq_of_keyText {t : String} (hC : C.keyText i = some t) (hD : D.keyText j = some t) :
    C.name i = D.name j ∧ (C.graph.modules i).defHash = (D.graph.modules j).defHash ∧
      transitive C.graph i = transitive D.graph j := by
  obtain ⟨g, hg, hgt, hgname, hghash, hgtrans⟩ := keyText_eq_some hC
  obtain ⟨h, hh, hht, hhname, hhhash, hhtrans⟩ := keyText_eq_some hD
  obtain ⟨hname, hhash, htrans, -⟩ := CacheKey.toText_inj hg hh (hgt.trans hht.symm)
  rw [hgname, hhname] at hname
  rw [hgtrans, hhtrans] at htrans
  exact ⟨Ident.ext hname, hghash.trans ((congrArg some hhash).trans hhhash.symm),
    List.map_injective_iff.2 entry_injective htrans⟩

/-- A module that is an import of both has one hash. -/
theorem defHash_eq_of_transitive (htrans : transitive C.graph i = transitive D.graph j)
    (ha : a ∈ importClosure C.graph i) (hb : b ∈ importClosure D.graph j) (hname : C.name a = D.name b) :
    (C.graph.modules a).defHash = (D.graph.modules b).defHash := by
  have hforth : ∀ h, (C.graph.modules a).defHash = some h → (D.graph.modules b).defHash = some h := by
    intro h hh
    have hmem : (C.name a, h) ∈ transitive D.graph j := htrans ▸ (mem_transitive _).2 ⟨a, ha, rfl, hh⟩
    obtain ⟨b', -, hname', hhash⟩ := (mem_transitive _).1 hmem
    rwa [D.graph.name_inj (hname'.trans hname)] at hhash
  have hback : ∀ h, (D.graph.modules b).defHash = some h → (C.graph.modules a).defHash = some h := by
    intro h hh
    have hmem : (D.name b, h) ∈ transitive C.graph i := htrans ▸ (mem_transitive _).2 ⟨b, hb, rfl, hh⟩
    obtain ⟨a', -, hname', hhash⟩ := (mem_transitive _).1 hmem
    rwa [C.graph.name_inj (hname'.trans hname.symm)] at hhash
  rcases hC : (C.graph.modules a).defHash with _ | h
  · rcases hD : (D.graph.modules b).defHash with _ | h
    · rfl
    · exact absurd (hback h hD) (by simp [hC])
  · exact (hforth h hC).symm

theorem sources_eq : C.sources a =
    ((C.graph.modules a).defAst.map .ok, (C.graph.modules a).implAst.map .ok) :=
  Prod.ext (C.loaded.defAst a) (C.loaded.implAst a)

/-- Sources say the same iff they were parsed to the same. -/
theorem sources_eq_iff : C.sources a = D.sources b ↔
    (C.graph.modules a).defAst = (D.graph.modules b).defAst ∧
      (C.graph.modules a).implAst = (D.graph.modules b).implAst := by
  have hok : Function.Injective (Option.map (Except.ok : Ast → Except String Ast)) :=
    Option.map_injective fun _ _ h => Except.ok.inj h
  rw [sources_eq, sources_eq, Prod.mk.injEq, hok.eq_iff, hok.eq_iff]

namespace SameSources

theorem symm (h : C.SameSources D i j) : D.SameSources C j i :=
  fun b hb a ha hname hhash => (h a ha b hb hname.symm hhash.symm).symm

/-- Step by step along the imports: what one module leads to, the other does. -/
theorem matched (h : C.SameSources D i j) (hname : C.name i = D.name j)
    (hhash : (C.graph.modules i).defHash = (D.graph.modules j).defHash)
    (htrans : transitive C.graph i = transitive D.graph j) :
    ∀ a ∈ i :: importClosure C.graph i, ∃ b ∈ j :: importClosure D.graph j, C.name a = D.name b ∧
      (C.graph.modules a).defHash = (D.graph.modules b).defHash := by
  have hstep : ∀ a ∈ i :: importClosure C.graph i, (∃ b ∈ j :: importClosure D.graph j,
      C.name a = D.name b ∧ (C.graph.modules a).defHash = (D.graph.modules b).defHash) →
      ∀ a' ∈ C.graph.importsOf a, ∃ b ∈ j :: importClosure D.graph j, C.name a' = D.name b ∧
        (C.graph.modules a').defHash = (D.graph.modules b).defHash := by
    rintro a ha ⟨b, hb, hname, hhash⟩ a' ha'
    rw [C.loaded.defHash, D.loaded.defHash] at hhash
    obtain ⟨hdef, himpl⟩ := sources_eq_iff.1 (h a ha b hb hname hhash)
    have himports : (C.graph.importsOf a).map C.name = (D.graph.importsOf b).map D.name := by
      refine (C.loaded.imports a).trans (Eq.trans ?_ (D.loaded.imports b).symm)
      rw [hdef, himpl]
    have hmem : C.name a' ∈ (D.graph.importsOf b).map D.name :=
      himports ▸ List.mem_map_of_mem ha'
    obtain ⟨b', hb', hname'⟩ := List.mem_map.1 hmem
    have hbc := mem_importClosure_of_import D.graph hb hb'
    exact ⟨b', List.mem_cons_of_mem _ hbc, hname'.symm, defHash_eq_of_transitive htrans
      (mem_importClosure_of_import C.graph ha ha') hbc hname'.symm⟩
  have hself : ∃ b ∈ j :: importClosure D.graph j, C.name i = D.name b ∧
      (C.graph.modules i).defHash = (D.graph.modules b).defHash :=
    ⟨j, List.mem_cons_self, hname, hhash⟩
  intro a ha
  rcases List.mem_cons.1 ha with rfl | ha
  · exact hself
  · obtain ⟨k, hk, hreach⟩ := (mem_importClosure _).1 ha
    induction hreach with
    | refl => exact hstep i List.mem_cons_self hself k hk
    | tail hreach hc ih =>
      have hmem := (mem_importClosure C.graph).2 ⟨k, hk, hreach⟩
      exact hstep _ (List.mem_cons_of_mem _ hmem) (ih (List.mem_cons_of_mem _ hmem) hmem) _ hc

theorem visible_eq (h : C.SameSources D i j) (hname : C.name i = D.name j)
    (hhash : (C.graph.modules i).defHash = (D.graph.modules j).defHash)
    (htrans : transitive C.graph i = transitive D.graph j) :
    visible C.graph i = visible D.graph j := by
  funext name
  by_cases hex : ∃ a ∈ i :: importClosure C.graph i, C.name a = name
  · obtain ⟨a, ha, rfl⟩ := hex
    obtain ⟨b, hb, hnameb, hhashb⟩ := h.matched hname hhash htrans a ha
    rw [C.loaded.defHash, D.loaded.defHash] at hhashb
    obtain ⟨hdef, himpl⟩ := sources_eq_iff.1 (h a ha b hb hnameb hhashb)
    have hC : visible C.graph i (C.name a) = _ := visible_eq_some C.graph ha
    have hD : visible D.graph j (D.name b) = _ := visible_eq_some D.graph hb
    rw [hC, hnameb, hD, hdef, himpl]
  · rw [visible_eq_none C.graph fun a ha hna => hex ⟨a, ha, hna⟩, visible_eq_none D.graph]
    rintro b hb rfl
    obtain ⟨a, ha, hnamea, -⟩ := h.symm.matched hname.symm hhash.symm htrans.symm b hb
    exact hex ⟨a, ha, hnamea.symm⟩

end SameSources

/-- Under one key, the same is parsed of all that the modules lead to iff the sources say the same. -/
theorem visible_eq_iff {t : String} (hC : C.keyText i = some t) (hD : D.keyText j = some t) :
    visible C.graph i = visible D.graph j ↔ C.SameSources D i j := by
  obtain ⟨hname, hhash, htrans⟩ := eq_of_keyText hC hD
  constructor
  · intro h a ha b hb hab _
    have hvisible : visible C.graph i (C.name a) = visible D.graph j (C.name a) := congrFun h (C.name a)
    have hCa : visible C.graph i (C.name a) = _ := visible_eq_some C.graph ha
    have hDb : visible D.graph j (D.name b) = _ := visible_eq_some D.graph hb
    rw [hCa, hab, hDb] at hvisible
    exact sources_eq_iff.2 (Prod.mk.inj (Option.some.inj hvisible))
  · exact fun h => h.visible_eq hname hhash htrans

end Compilation

/-! ## A symbol that is not in the key -/

/-- A front end for texts without comments: the words, and no imports. -/
def wordsFrontEnd : FrontEnd (List Bytes) where
  parse text := .ok ((text.splitOn space).filter (· ≠ []))
  collectTopImports _ := []

theorem all_isAlphanum_m : ("M".toList.all fun c => c.isAlphanum || c == '_') = true := by decide

/-- `M.def`, compiled under `env`. -/
def oneDef (file : Bytes) (env : Env) (ast : List Bytes)
    (h : (parseBytesWithEnv wordsFrontEnd env file).toOption = some ast) : Compilation wordsFrontEnd 1 where
  graph :=
    { modules := fun _ => ⟨⟨"M", valid_of_all all_isAlphanum_m⟩, some ast, none, some (hashSource file), [], false⟩
      name_inj := fun _ _ _ => Subsingleton.elim _ _ }
  env := env
  loaded :=
    { defFile := fun _ => some file
      implFile := fun _ => none
      defHash := fun _ => rfl
      defAst := fun _ => by
        rcases hparse : parseBytesWithEnv wordsFrontEnd env file with e | a
        · rw [hparse] at h
          cases h
        · rw [hparse] at h
          cases h
          exact congrArg some hparse
      implAst := fun _ => rfl
      imports := fun _ => by simp [importNames, wordsFrontEnd, ModuleGraph.importsOf] }
  cfg := cacheConfig

def wideFile : Bytes :=
  ascii "DEFINITION MODULE M; CONST %IF WIDE %THEN Wide %ELSE Narrow %END = 1; END M."

def narrowDef : Compilation wordsFrontEnd 1 :=
  oneDef wideFile .targetDefault (["DEFINITION", "MODULE", "M;", "CONST", "Narrow", "=", "1;", "END", "M."].map ascii)
    (by decide +kernel)

/-- Compiled with `--define WIDE`. -/
def wideDef : Compilation wordsFrontEnd 1 :=
  oneDef wideFile (Env.targetDefault.defineValue (ascii "WIDE") (ascii "true"))
    (["DEFINITION", "MODULE", "M;", "CONST", "Wide", "=", "1;", "END", "M."].map ascii) (by decide +kernel)

/-- One key, and two constants. -/
example : narrowDef.keyText 0 = wideDef.keyText 0 ∧ (narrowDef.keyText 0).isSome ∧
    (narrowDef.graph.modules 0).defAst ≠ (wideDef.graph.modules 0).defAst := by
  decide +kernel

end NewM2.Sema
