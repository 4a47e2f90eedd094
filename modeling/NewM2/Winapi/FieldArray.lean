import NewM2.Codegen.Layout
import NewM2.Lib.Text

/-! # Types of array fields (`newm2-winapi-gen/src/policy.rs`)

The metadata give an array field as the name of its elements and the bytes it takes up. `resolveFieldArray_size`
says when the type that is written for it has these bytes. -/

namespace NewM2.Winapi.Policy
open NewM2.Types NewM2.Layout

/-- A resolved reference to a type. -/
inductive M2Ref
  /-- A pervasive type. -/
  | builtin (n : String)
  /-- A name of the module `WIN32`. -/
  | win32 (n : String)
  /-- A record of this module. -/
  | local_ (n : String)
  /-- A record of another module. -/
  | crossNs (module_ name : String)
  | pointer (inner : M2Ref)
  | array (inner : M2Ref) (count : Int)
  /-- The opaque fallback. -/
  | address
deriving Repr, DecidableEq

/-- What the generated modules emit, by qualified name. -/
structure CrossIndex where
  /-- Module and name of a record. -/
  structs : String → Option (String × String)
  /-- The built-in behind an enumeration. -/
  enums : String → Option String

structure ResolveCtx where
  localStructs : String → Bool
  enumBacking : String → Option String

/-- The built-in of a primitive of the metadata. -/
def primitive (name : String) : Option String :=
  match name with
  | "bool" => some "BOOLEAN"
  | "char" => some "CHAR"
  | "i8" => some "INTEGER8"
  | "u8" => some "BYTE"
  | "i16" => some "INTEGER16"
  | "u16" => some "WORD"
  | "i32" => some "INTEGER32"
  | "u32" => some "DWORD"
  | "i64" => some "INTEGER64"
  | "u64" => some "QWORD"
  | "f32" => some "REAL"
  | "f64" => some "LONGREAL"
  | "isize" => some "ADRINT"
  | "usize" => some "ADRCARD"
  | _ => none

def win32BaseDefs : List (String × M2Ref) :=
  [("HANDLE", .builtin "ADDRESS"), ("BOOL", .builtin "INTEGER32"), ("BOOLEAN", .builtin "BYTE"),
    ("HRESULT", .builtin "INTEGER32"), ("NTSTATUS", .builtin "INTEGER32"), ("LPARAM", .builtin "ADRINT"),
    ("WPARAM", .builtin "ADRCARD"), ("LRESULT", .builtin "ADRINT"), ("PVOID", .builtin "ADDRESS"),
    ("LPVOID", .builtin "ADDRESS"), ("WCHAR", .builtin "CHAR"), ("PWSTR", .pointer (.builtin "CHAR")),
    ("PCWSTR", .pointer (.builtin "CHAR")), ("PSTR", .pointer (.builtin "ACHAR")),
    ("PCSTR", .pointer (.builtin "ACHAR")), ("HWND", .builtin "ADDRESS"), ("HDC", .builtin "ADDRESS"),
    ("HMODULE", .builtin "ADDRESS"), ("HINSTANCE", .builtin "ADDRESS"), ("HMENU", .builtin "ADDRESS"),
    ("HICON", .builtin "ADDRESS"), ("HBRUSH", .builtin "ADDRESS"), ("HCURSOR", .builtin "ADDRESS"),
    ("HBITMAP", .builtin "ADDRESS"), ("HFONT", .builtin "ADDRESS"), ("HGDIOBJ", .builtin "ADDRESS"),
    ("HKEY", .builtin "ADDRESS"), ("HGLOBAL", .builtin "ADDRESS"), ("HLOCAL", .builtin "ADDRESS"),
    ("HPEN", .builtin "ADDRESS"), ("HRGN", .builtin "ADDRESS"), ("HPALETTE", .builtin "ADDRESS"),
    ("HFILE", .builtin "ADDRESS")]

def win32Names : List String := win32BaseDefs.map (·.1) ++ ["GUID"]

/-- `str::trim`. -/
def trimmed (s : String) : String := String.ofList (Text.trim s.toList)

/-- The bytes of an element, where its name tells. -/
def primitiveElemSize (raw : String) : Option Int :=
  let s := trimmed raw
  if s = "u8" ∨ s = "i8" ∨ s = "Foundation.CHAR" then some 1
  else if s = "char" ∨ s = "u16" ∨ s = "i16" then some 2
  else if s = "u32" ∨ s = "i32" ∨ s = "f32" then some 4
  else if s = "u64" ∨ s = "i64" ∨ s = "f64" ∨ s = "usize" ∨ s = "isize" then some 8
  else if s = "System.Guid" then some 16
  else if s.toList.getLast? = some '*' then some 8
  else none

section resolve
variable (ctx : ResolveCtx) (index : CrossIndex) (current : String)

/-- The last part of a qualified name. -/
def simpleName (s : String) : String := String.ofList (s.toList.rtakeWhile (· ≠ '.'))

/-- The reference, and the warnings. -/
def resolveBase (s : String) : M2Ref × List String :=
  match primitive s with
  | some b => (.builtin b, if s = "f32" then ["f32 mapped to REAL (64-bit) — ABI width differs"] else [])
  | none =>
    let simple := simpleName s
    if simple = "Guid" ∨ simple = "GUID" then (.win32 "GUID", [])
    else if simple ∈ win32Names then (.win32 simple, [])
    else
      match ctx.enumBacking simple with
      | some backing => (.builtin backing, [])
      | none =>
        if ctx.localStructs simple then (.local_ simple, [])
        else
          match index.structs s with
          | some (module_, name) => (if module_ = current then .local_ name else .crossNs module_ name, [])
          | none =>
            match index.enums s with
            | some backing => (.builtin backing, [])
            | none => (.address, ["unresolved type '" ++ s ++ "' -> ADDRESS (opaque)"])

/-- The type of a field `Elem[]` that takes up `spanBytes`, and the warnings. -/
def resolveFieldArray (rawElem : String) (spanBytes : Int) : M2Ref × List String :=
  if spanBytes ≤ 0 then
    (.address, ["array field '" ++ rawElem ++ "[]' span " ++ toString spanBytes ++ " -> ADDRESS"])
  else
    let r := trimmed rawElem
    match primitiveElemSize r with
    | some esz =>
      if 0 < esz ∧ spanBytes % esz = 0 then
        let (elem, warnings) := if r.toList.getLast? = some '*' then (.address, []) else resolveBase ctx index current r
        (.array elem (spanBytes / esz), warnings)
      else (.array (.builtin "BYTE") spanBytes, [])
    | none => (.array (.builtin "BYTE") spanBytes, [])

end resolve

/-! ## The types -/

/-- The pervasive types. -/
def pervasives : List (String × Ty) :=
  [("BOOLEAN", .builtin .boolean), ("CHAR", .builtin .char), ("INTEGER", .builtin .integer),
    ("CARDINAL", .builtin .cardinal), ("REAL", .builtin .real), ("LONGINT", .builtin .longInt),
    ("LONGCARD", .builtin .longCard), ("LONGREAL", .builtin .longReal), ("BITSET", .builtin .bitset),
    ("PROC", .builtin .proc), ("COMPLEX", .builtin .complex), ("LONGCOMPLEX", .builtin .longComplex),
    ("INTEGER8", .builtin .integer8), ("INTEGER16", .builtin .integer16), ("INTEGER32", .builtin .integer32),
    ("INTEGER64", .builtin .integer64), ("CARDINAL8", .builtin .cardinal8), ("CARDINAL16", .builtin .cardinal16),
    ("CARDINAL32", .builtin .cardinal32), ("CARDINAL64", .builtin .cardinal64), ("BYTE", .builtin .byte),
    ("WORD", .builtin .word), ("DWORD", .builtin .dword), ("QWORD", .builtin .qword),
    ("ADDRESS", .builtin .address), ("ADRINT", .builtin .adrint), ("ADRCARD", .builtin .adrcard),
    ("PROTECTION", .builtin .cardinal), ("DWORDBOOL", .builtin .cardinal32), ("BOOL8", .builtin .cardinal8),
    ("BYTEBOOL", .builtin .cardinal8), ("WORDBOOL", .builtin .cardinal16), ("BITSET16", .builtin .cardinal16),
    ("SHORTCARD", .builtin .cardinal16), ("ACHAR", .builtin .achar), ("UCHAR", .builtin .uchar),
    ("SHORTINT", .builtin .integer16), ("SHORTREAL", .builtin .real32), ("SHORTCOMPLEX", .builtin .complex),
    ("REAL64X2", .vector .real64x2), ("REAL32X4", .vector .real32x4)]

def pervasiveTy (name : String) : Ty := (pervasives.lookup name).getD .unresolved

/-- `ARRAY [0..count-1] OF`. -/
def fixedArray (count : Int) (base : Ty) : Ty := .array [.subrange (.builtin .integer) 0 (max (count - 1) 0)] base

/-- The types of the module `WIN32`. -/
def win32Ty (name : String) : Ty :=
  if name = "GUID" then .record [pervasiveTy "DWORD", pervasiveTy "WORD", pervasiveTy "WORD", fixedArray 8 (pervasiveTy "BYTE")]
  else
    match win32BaseDefs.lookup name with
    | some (.builtin b) => pervasiveTy b
    | some (.pointer _) => .pointer
    | _ => .unresolved

/-- The records of the generated modules. -/
structure Records where
  local_ : String → Ty
  cross : String → String → Ty

/-- The type that the text of a reference denotes. -/
def M2Ref.ty (R : Records) : M2Ref → Ty
  | builtin n => pervasiveTy n
  | win32 n => win32Ty n
  | local_ n => R.local_ n
  | crossNs module_ name => R.cross module_ name
  | pointer _ => .pointer
  | array inner count => fixedArray count (inner.ty R)
  | address => .builtin .address

/-! ## When the type has the bytes of the field -/

section size
variable {R : Records} {ctx : ResolveCtx} {index : CrossIndex} {current rawElem : String} {span esz count : Int}
  {base : Ty}

theorem allocSize_fixedArray (hcount : 0 < count) (hlt : count < 2 ^ 63) :
    (fixedArray count base).allocSize = min count.toNat maxArrayLength * base.allocSize := by
  have hcard : (Ty.subrange (.builtin .integer) 0 (max (count - 1) 0)).ordinalCardinality = some count := by
    have hbound : max (count - 1) 0 - 0 + 1 = count := by omega
    have hfits : InI128 count := ⟨by omega, by omega⟩
    simp only [Ty.ordinalCardinality, Ty.ordinalBounds, Option.bind_some, hbound, if_pos hfits]
  show arrayLength [_] * base.allocSize = _
  have hmax : max count 0 = count := by omega
  simp only [arrayLength, List.map_cons, List.map_nil, List.prod_cons, List.prod_nil, mul_one, hcard,
    Option.getD_some, hmax]

/-- A count that is too large is cut off. -/
theorem allocSize_eq_span (base : Ty) (hspan : 0 < span) (hlt : span < 2 ^ 63) (hesz : 0 < esz) (hdvd : span % esz = 0) :
    ((fixedArray (span / esz) base).allocSize : Int) = span ↔
      (span / esz ≤ maxArrayLength ∧ (base.allocSize : Int) = esz) ∨
        ((maxArrayLength : Int) < span / esz ∧ span = maxArrayLength * base.allocSize) := by
  have hmul : span / esz * esz = span := Int.ediv_mul_cancel (Int.dvd_of_emod_eq_zero hdvd)
  have hcount : 0 < span / esz := Int.ediv_pos_of_pos_of_dvd hspan hesz.le (Int.dvd_of_emod_eq_zero hdvd)
  have hle : span / esz ≤ span := Int.ediv_le_self _ hspan.le
  rw [allocSize_fixedArray hcount (hle.trans_lt hlt)]
  rcases le_or_gt (span / esz) maxArrayLength with hle | hgt
  · have hmin : ((min (span / esz).toNat maxArrayLength : Nat) : Int) = span / esz := by omega
    have heq : span / esz * base.allocSize = span ↔ (base.allocSize : Int) = esz := by
      nth_rewrite 2 [← hmul]
      exact mul_right_inj' hcount.ne'
    rw [Nat.cast_mul, hmin, heq]
    exact ⟨fun h => .inl ⟨hle, h⟩, fun h => h.elim (·.2) fun h => absurd h.1 (not_lt.2 hle)⟩
  · have hmin : min (span / esz).toNat maxArrayLength = maxArrayLength := by omega
    rw [Nat.cast_mul, hmin, eq_comm]
    exact ⟨fun h => .inr ⟨hgt, h⟩, fun h => h.elim (fun h => absurd h.1 (not_le.2 hgt)) (·.2)⟩

/-- With elements of the right size only the cut matters. -/
theorem allocSize_eq_span_of_eq {base : Ty} (hspan : 0 < span) (hlt : span < 2 ^ 63) (hesz : 0 < esz)
    (hdvd : span % esz = 0) (hbase : (base.allocSize : Int) = esz) :
    ((fixedArray (span / esz) base).allocSize : Int) = span ↔ span / esz ≤ maxArrayLength := by
  have hmul : span / esz * esz = span := Int.ediv_mul_cancel (Int.dvd_of_emod_eq_zero hdvd)
  rw [allocSize_eq_span base hspan hlt hesz hdvd, hbase]
  refine ⟨fun h => h.elim (·.1) fun ⟨hgt, heq⟩ => ?_, fun h => .inl ⟨h, rfl⟩⟩
  have hcount := mul_right_cancel₀ hesz.ne' (hmul.trans heq)
  exact absurd hgt (not_lt.2 hcount.le)

/-- The bytes that are counted for an element. -/
def countedBytes (elem : String) (span : Int) : Int :=
  match primitiveElemSize elem with
  | some esz => if span % esz = 0 then esz else 1
  | none => 1

/-- The bytes of the type that stands for `Foundation.CHAR`. -/
def charBytes (R : Records) (ctx : ResolveCtx) (index : CrossIndex) (current : String) : Nat :=
  match ctx.enumBacking "CHAR" with
  | some backing => (pervasiveTy backing).allocSize
  | none =>
    if ctx.localStructs "CHAR" then (R.local_ "CHAR").allocSize
    else
      match index.structs "Foundation.CHAR" with
      | some (module_, name) => (if module_ = current then R.local_ name else R.cross module_ name).allocSize
      | none =>
        match index.enums "Foundation.CHAR" with
        | some backing => (pervasiveTy backing).allocSize
        | none => 8

/-- The elements are counted with the bytes they have, and there is room for as many; an array whose length is
cut off keeps its bytes when its elements make up for it. -/
def KeepsSpan (R : Records) (ctx : ResolveCtx) (index : CrossIndex) (current rawElem : String) (span : Int) : Prop :=
  if trimmed rawElem = "Foundation.CHAR" then
    (span ≤ maxArrayLength ∧ charBytes R ctx index current = 1) ∨
      ((maxArrayLength : Int) < span ∧ span = maxArrayLength * charBytes R ctx index current)
  else if trimmed rawElem = "f32" ∧ span % 4 = 0 then span = maxArrayLength * 8
  else span / countedBytes (trimmed rawElem) span ≤ maxArrayLength

theorem primitiveElemSize_char : primitiveElemSize "Foundation.CHAR" = some 1 := by
  have htrim : trimmed "Foundation.CHAR" = "Foundation.CHAR" := by
    simp [trimmed, Text.trim, Text.trimStart, Text.trimEnd, List.rdropWhile, Text.isWhitespace]
  simp [primitiveElemSize, htrim]

theorem primitiveElemSize_f32 : primitiveElemSize "f32" = some 4 := by
  have htrim : trimmed "f32" = "f32" := by
    simp [trimmed, Text.trim, Text.trimStart, Text.trimEnd, List.rdropWhile, Text.isWhitespace]
  simp [primitiveElemSize, htrim]

theorem allocSize_char (R : Records) (ctx : ResolveCtx) (index : CrossIndex) (current : String) :
    ((resolveBase ctx index current "Foundation.CHAR").1.ty R).allocSize = charBytes R ctx index current := by
  have hprimitive : primitive "Foundation.CHAR" = none := rfl
  have hsimple : simpleName "Foundation.CHAR" = "CHAR" := by simp [simpleName, List.rtakeWhile]
  have hguid : ¬ ("CHAR" = "Guid" ∨ "CHAR" = "GUID") := by simp
  have hnames : "CHAR" ∉ win32Names := by simp [win32Names, win32BaseDefs]
  simp only [resolveBase, hprimitive, hsimple, if_neg hguid, if_neg hnames, charBytes]
  split
  · rfl
  split
  · rfl
  split
  · split <;> rfl
  split <;> rfl

theorem trimmed_trimmed (s : String) : trimmed (trimmed s) = trimmed s := by
  rw [trimmed, trimmed, String.toList_ofList, Text.trim_trim]

/-- The primitives whose two sizes agree. -/
def soundPrimitives : List (String × Int) :=
  [("u8", 1), ("i8", 1), ("char", 2), ("u16", 2), ("i16", 2), ("u32", 4), ("i32", 4), ("u64", 8), ("i64", 8),
    ("f64", 8), ("usize", 8), ("isize", 8)]

theorem allocSize_primitive : ∀ p ∈ soundPrimitives, p.1.toList.getLast? ≠ some '*' ∧
    (primitive p.1).map (fun b => ((pervasiveTy b).allocSize : Int)) = some p.2 := by
  decide

theorem mem_soundPrimitives {name : String} (hname : trimmed name = name) (hsize : primitiveElemSize name = some esz)
    (hchar : name ≠ "Foundation.CHAR") (hreal : name ≠ "f32") :
    (name, esz) ∈ soundPrimitives ∨ (name = "System.Guid" ∧ esz = 16) ∨ (name.toList.getLast? = some '*' ∧ esz = 8) := by
  simp only [primitiveElemSize] at hsize
  rw [hname] at hsize
  split_ifs at hsize with h₁ h₂ h₄ h₈ hguid hpointer
  all_goals obtain rfl := Option.some.inj hsize
  · rcases h₁ with rfl | rfl | rfl
    · exact .inl (by simp [soundPrimitives])
    · exact .inl (by simp [soundPrimitives])
    · exact absurd rfl hchar
  · rcases h₂ with rfl | rfl | rfl <;> exact .inl (by simp [soundPrimitives])
  · rcases h₄ with rfl | rfl | rfl
    · exact .inl (by simp [soundPrimitives])
    · exact .inl (by simp [soundPrimitives])
    · exact absurd rfl hreal
  · rcases h₈ with rfl | rfl | rfl | rfl | rfl <;> exact .inl (by simp [soundPrimitives])
  · exact .inr (.inl ⟨hguid, rfl⟩)
  · exact .inr (.inr ⟨hpointer, rfl⟩)

theorem resolveBase_guid (ctx : ResolveCtx) (index : CrossIndex) (current : String) :
    (resolveBase ctx index current "System.Guid").1 = .win32 "GUID" := by
  have hprimitive : primitive "System.Guid" = none := rfl
  have hsimple : simpleName "System.Guid" = "Guid" := by simp [simpleName, List.rtakeWhile]
  simp only [resolveBase, hprimitive, hsimple, true_or, if_true]

/-- The elements that are counted with the bytes they have. -/
theorem allocSize_elem (R : Records) (ctx : ResolveCtx) (index : CrossIndex) (current : String) {name : String}
    (hname : trimmed name = name) (hsize : primitiveElemSize name = some esz) (hchar : name ≠ "Foundation.CHAR")
    (hreal : name ≠ "f32") :
    0 < esz ∧ (((if name.toList.getLast? = some '*' then (M2Ref.address, []) else
      resolveBase ctx index current name).1.ty R).allocSize : Int) = esz := by
  rcases mem_soundPrimitives hname hsize hchar hreal with hmem | ⟨rfl, rfl⟩ | ⟨hpointer, rfl⟩
  · have hpos : ∀ p ∈ soundPrimitives, 0 < p.2 := by simp [soundPrimitives]
    obtain ⟨hlast, halloc⟩ := allocSize_primitive _ hmem
    obtain ⟨b, hb, halloc⟩ := Option.map_eq_some_iff.1 halloc
    refine ⟨hpos _ hmem, ?_⟩
    simp only [if_neg hlast, resolveBase, hb]
    exact halloc
  · have hlast : "System.Guid".toList.getLast? ≠ some '*' := by simp
    have hguid : (win32Ty "GUID").allocSize = 16 := by
      simp [win32Ty, pervasiveTy, pervasives, List.lookup]
      decide
    rw [if_neg hlast, resolveBase_guid, M2Ref.ty, hguid]
    decide
  · rw [if_pos hpointer]
    exact ⟨by decide, rfl⟩

section equations
variable (ctx index current)

theorem resolveFieldArray_of_dvd (hspan : 0 < span) (hsize : primitiveElemSize (trimmed rawElem) = some esz)
    (hesz : 0 < esz) (hdvd : span % esz = 0) : (resolveFieldArray ctx index current rawElem span).1 =
      .array (if (trimmed rawElem).toList.getLast? = some '*' then (M2Ref.address, []) else
        resolveBase ctx index current (trimmed rawElem)).1 (span / esz) := by
  simp only [resolveFieldArray, if_neg (not_le.2 hspan), hsize, if_pos (And.intro hesz hdvd)]

theorem resolveFieldArray_blob (hspan : 0 < span)
    (hsize : ∀ esz, primitiveElemSize (trimmed rawElem) = some esz → span % esz ≠ 0) :
    (resolveFieldArray ctx index current rawElem span).1 = .array (.builtin "BYTE") span := by
  simp only [resolveFieldArray, if_neg (not_le.2 hspan)]
  split
  · next esz hesz => rw [if_neg fun h => hsize esz hesz h.2]
  · rfl

end equations

theorem allocSize_blob (R : Records) (hspan : 0 < span) (hlt : span < 2 ^ 63) :
    (((M2Ref.array (.builtin "BYTE") span).ty R).allocSize : Int) = span ↔ span ≤ maxArrayLength := by
  have hbyte : ((pervasiveTy "BYTE").allocSize : Int) = 1 := by
    have hty : pervasiveTy "BYTE" = .builtin .byte := by simp [pervasiveTy, pervasives, List.lookup]
    rw [hty]
    rfl
  have h := allocSize_eq_span_of_eq hspan hlt one_pos (Int.emod_one span) hbyte
  rw [Int.ediv_one] at h
  exact h

theorem allocSize_f32 (R : Records) (ctx : ResolveCtx) (index : CrossIndex) (current : String) :
    ((resolveBase ctx index current "f32").1.ty R).allocSize = 8 := by
  have hprimitive : primitive "f32" = some "REAL" := rfl
  have hreal : (pervasiveTy "REAL").allocSize = 8 := by
    have hty : pervasiveTy "REAL" = .builtin .real := by simp [pervasiveTy, pervasives, List.lookup]
    rw [hty]
    rfl
  simpa only [resolveBase, hprimitive, M2Ref.ty] using hreal

/-- The type has the bytes of the field just when its elements are counted with the bytes they have. -/
theorem resolveFieldArray_size (R : Records) (ctx : ResolveCtx) (index : CrossIndex) (current rawElem : String)
    (hspan : 0 < span) (hlt : span < 2 ^ 63) :
    (((resolveFieldArray ctx index current rawElem span).1.ty R).allocSize : Int) = span ↔
      KeepsSpan R ctx index current rawElem span := by
  have hname := trimmed_trimmed rawElem
  unfold KeepsSpan
  by_cases hchar : trimmed rawElem = "Foundation.CHAR"
  · have hlast : "Foundation.CHAR".toList.getLast? ≠ some '*' := by simp
    have hsize : primitiveElemSize (trimmed rawElem) = some 1 := hchar ▸ primitiveElemSize_char
    rw [if_pos hchar, resolveFieldArray_of_dvd ctx index current hspan hsize one_pos (Int.emod_one span), M2Ref.ty,
      allocSize_eq_span _ hspan hlt one_pos (Int.emod_one span), hchar, if_neg hlast, allocSize_char, Int.ediv_one,
      Nat.cast_eq_one]
  rw [if_neg hchar]
  by_cases hreal : trimmed rawElem = "f32" ∧ span % 4 = 0
  · obtain ⟨hname, hdvd⟩ := hreal
    have hlast : "f32".toList.getLast? ≠ some '*' := by simp
    have hsize : primitiveElemSize (trimmed rawElem) = some 4 := hname ▸ primitiveElemSize_f32
    rw [if_pos ⟨hname, hdvd⟩, resolveFieldArray_of_dvd ctx index current hspan hsize four_pos hdvd, M2Ref.ty,
      allocSize_eq_span _ hspan hlt four_pos hdvd, hname, if_neg hlast, allocSize_f32]
    omega
  rw [if_neg hreal]
  by_cases hdvd : ∃ esz, primitiveElemSize (trimmed rawElem) = some esz ∧ span % esz = 0
  · obtain ⟨esz, hsize, hdvd⟩ := hdvd
    have hreal : trimmed rawElem ≠ "f32" := by
      intro heq
      rw [heq, primitiveElemSize_f32] at hsize
      obtain rfl := Option.some.inj hsize
      exact hreal ⟨heq, hdvd⟩
    obtain ⟨hpos, helem⟩ := allocSize_elem R ctx index current hname hsize hchar hreal
    rw [resolveFieldArray_of_dvd ctx index current hspan hsize hpos hdvd, M2Ref.ty,
      allocSize_eq_span_of_eq hspan hlt hpos hdvd helem]
    simp only [countedBytes, hsize, if_pos hdvd]
  · have hne : ∀ esz, primitiveElemSize (trimmed rawElem) = some esz → span % esz ≠ 0 :=
      fun esz hsize h => hdvd ⟨esz, hsize, h⟩
    have hcounted : countedBytes (trimmed rawElem) span = 1 := by
      unfold countedBytes
      split
      · next esz hsize => exact if_neg (hne esz hsize)
      · rfl
    rw [resolveFieldArray_blob ctx index current hspan hne, allocSize_blob R hspan hlt, hcounted, Int.ediv_one]

end size

/-- `Default::default()`. -/
def ResolveCtx.default : ResolveCtx := ⟨fun _ => false, fun _ => none⟩

def CrossIndex.default : CrossIndex := ⟨fun _ => none, fun _ => none⟩

def noRecords : Records := ⟨fun _ => .unresolved, fun _ _ => .unresolved⟩

theorem resolveFieldArray_size_u16 :
    (((resolveFieldArray .default .default "" "u16" 520).1.ty noRecords).allocSize : Int) = 520 :=
  (resolveFieldArray_size noRecords .default .default "" "u16" (by decide) (by decide)).2
    (by
      have htrim : trimmed "u16" = "u16" := by
        simp [trimmed, Text.trim, Text.trimStart, Text.trimEnd, List.rdropWhile, Text.isWhitespace]
      simp [KeepsSpan, htrim, countedBytes, primitiveElemSize, maxArrayLength])

/-- A field of twelve `f32` takes up twice its bytes, and one of narrow characters becomes one of addresses. -/
theorem resolveFieldArray_size_differs :
    ((resolveFieldArray .default .default "" "f32" 48).1 = .array (.builtin "REAL") 12 ∧
      ((resolveFieldArray .default .default "" "f32" 48).1.ty noRecords).allocSize = 96) ∧
    (resolveFieldArray .default .default "" "Foundation.CHAR" 260).1 = .array .address 260 ∧
      ((resolveFieldArray .default .default "" "Foundation.CHAR" 260).1.ty noRecords).allocSize = 2080 := by
  decide +kernel

end NewM2.Winapi.Policy
