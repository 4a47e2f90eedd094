import Mathlib
import NewM2.Lib.Chars

/-!
# The voices of a tune (`library/winrtmod/Abc.mod`)

The parser works on variables for the current voice. When it comes to a V: line or a [V:id] field it copies them
into the table of voices and loads those of the other voice, which it makes when it does not find it. What the rest
of the parser does to the working variables in between is arbitrary here (`Event.work`). -/

namespace NewM2.Winrt.Abc
open Chars

def maxVoices : Nat := 16

instance : NeZero maxVoices := ⟨by decide⟩

structure VoiceState where
  used : Bool
  name : List Code
  channel : Int
  instrument : Int
  curMs : ℚ
  keySharps : Int
  unitN : Int
  unitD : Int
  tsN : Int
  tsD : Int
  transpose : Int
  barAcc : Fin 7 → Int
  barSet : Fin 7 → Bool
  size : name.length = 16

/-- The variables of the module that the voices are about. -/
structure Globals where
  curMs : ℚ
  msPerWhole : ℚ
  bpm : Int
  unitN : Int
  unitD : Int
  tsN : Int
  tsD : Int
  keySharps : Int
  transpose : Int
  chan : Int
  instrument : Int
  barAcc : Fin 7 → Int
  barSet : Fin 7 → Bool
  voices : Fin maxVoices → VoiceState
  nVoices : Nat
  cur : Fin maxVoices
  nextChan : Int
  defKey : Int
  defUnitN : Int
  defUnitD : Int
  defTsN : Int
  defTsD : Int
  defInstr : Int

def recompute (g : Globals) : Globals := { g with msPerWhole := (g.tsD : ℚ) * 60000 / g.bpm }

def saveCur (g : Globals) : Globals :=
  if g.cur.val < g.nVoices then
    { g with voices := Function.update g.voices g.cur { g.voices g.cur with
        curMs := g.curMs
        keySharps := g.keySharps
        unitN := g.unitN
        unitD := g.unitD
        tsN := g.tsN
        tsD := g.tsD
        transpose := g.transpose
        channel := g.chan
        instrument := g.instrument
        barAcc := g.barAcc
        barSet := g.barSet } }
  else g

def loadCur (g : Globals) : Globals :=
  recompute { g with
    curMs := (g.voices g.cur).curMs
    keySharps := (g.voices g.cur).keySharps
    unitN := (g.voices g.cur).unitN
    unitD := (g.voices g.cur).unitD
    tsN := (g.voices g.cur).tsN
    tsD := (g.voices g.cur).tsD
    transpose := (g.voices g.cur).transpose
    chan := (g.voices g.cur).channel
    instrument := (g.voices g.cur).instrument
    barAcc := (g.voices g.cur).barAcc
    barSet := (g.voices g.cur).barSet }

/-- The channel, and the next one. -/
def assignChannel (nextChan : Int) : Int × Int :=
  let ch := if nextChan = 9 then 10 else nextChan
  let ch := if 15 < ch then 15 else ch
  (ch, if ch + 1 = 9 then 10 else ch + 1)

/-- The length of a name, up to its NUL. -/
def nameLen (vname : List Code) : Nat := Chars.lengthOf vname

/-- `ident` is `ident[from..to-1]` of the source, here and below. -/
def nameEq (vname ident : List Code) : Bool :=
  if nameLen vname ≠ ident.length then false
  else (List.range (nameLen vname)).all fun i => vname[i]? = ident[i]?

/-- The index, or `none` for -1. -/
def findVoice (g : Globals) (ident : List Code) : Option (Fin maxVoices) :=
  (List.finRange maxVoices).find? fun i =>
    i.val < g.nVoices && ((g.voices i).used && nameEq (g.voices i).name ident)

/-- The loop of `CreateVoice` over the name, with `k` and the name. -/
def copyName : List Code → Nat → List Code → Nat × List Code
  | [], k, name => (k, name)
  | c :: cs, k, name => if k < 15 then copyName cs (k + 1) (name.set k c) else copyName cs k name

theorem length_copyName (ident : List Code) (k : Nat) (name : List Code) :
    (copyName ident k name).2.length = name.length := by
  induction ident generalizing k name with
  | nil => rfl
  | cons c cs ih =>
    rw [copyName]
    split_ifs
    · rw [ih, List.length_set]
    · exact ih _ _

/-- The voice that `CreateVoice` makes out of what is in the table. -/
def newVoice (g : Globals) (ident : List Code) (v : VoiceState) : VoiceState where
  used := true
  name := (copyName ident 0 v.name).2.set (copyName ident 0 v.name).1 nul
  channel := (assignChannel g.nextChan).1
  instrument := g.defInstr
  curMs := 0
  keySharps := g.defKey
  unitN := g.defUnitN
  unitD := g.defUnitD
  tsN := g.defTsN
  tsD := g.defTsD
  transpose := 0
  barAcc := fun _ => 0
  barSet := fun _ => false
  size := by rw [List.length_set, length_copyName, v.size]

def createVoice (g : Globals) (ident : List Code) : Globals × Fin maxVoices :=
  if h : g.nVoices < maxVoices then
    let idx : Fin maxVoices := ⟨g.nVoices, h⟩
    ({ g with
      nVoices := g.nVoices + 1
      nextChan := (assignChannel g.nextChan).2
      voices := Function.update g.voices idx (newVoice g ident (g.voices idx)) }, idx)
  else (g, g.cur)

def switchVoice (g : Globals) (ident : List Code) : Globals :=
  if ident.length = 0 then g
  else
    let g := saveCur g
    let (g, i) :=
      match findVoice g ident with
      | some i => (g, i)
      | none => createVoice g ident
    loadCur { g with cur := i }

def snapshotDefaults (g : Globals) : Globals :=
  { g with
    defKey := g.keySharps
    defUnitN := g.unitN
    defUnitD := g.unitD
    defTsN := g.tsN
    defTsD := g.tsD
    defInstr := g.instrument }

/-- A line of a text has no NUL. -/
structure Line where
  chars : List Code
  noNul : nul ∉ chars

def isBlank (c : Code) : Bool := c = code ' ' ∨ c = BitVec.ofNat 16 9

/-- The id of a V: line. -/
def lineIdent (ln : Line) : List Code :=
  ((ln.chars.drop 2).dropWhile isBlank).takeWhile fun c => !isBlank c

def handleVoiceLine (ln : Line) (g : Globals) : Globals := switchVoice g (lineIdent ln)

/-- The id of a [V:id] field of `ParseSeq`, which begins at `start`. -/
def inlineIdent (ln : Line) (start : Nat) : List Code :=
  (ln.chars.drop start).takeWhile fun c => !(c = code ']' || isBlank c)

/-- Where `ParseTune` starts, after whatever was parsed before. -/
def start (g : Globals) : Globals :=
  { g with
    curMs := 0
    msPerWhole := 2000
    bpm := 120
    unitN := 1
    unitD := 8
    tsN := 4
    tsD := 4
    keySharps := 0
    transpose := 0
    chan := 0
    instrument := 0
    defKey := 0
    defUnitN := 1
    defUnitD := 8
    defTsN := 4
    defTsD := 4
    defInstr := 0
    barSet := fun _ => false
    nVoices := 1
    cur := 0
    nextChan := 1
    voices := Function.update g.voices 0 { g.voices 0 with
      used := true
      name := ((g.voices 0).name.set 0 (code '1')).set 1 nul
      channel := 0
      instrument := 0
      size := by rw [List.length_set, List.length_set, (g.voices 0).size] } }

/-! ## Runs -/

/-- What a voice keeps while another one is current. -/
@[ext] structure Cursor where
  curMs : ℚ
  keySharps : Int
  unitN : Int
  unitD : Int
  tsN : Int
  tsD : Int
  transpose : Int
  channel : Int
  instrument : Int
  barAcc : Fin 7 → Int
  barSet : Fin 7 → Bool

def VoiceState.cursor (v : VoiceState) : Cursor :=
  ⟨v.curMs, v.keySharps, v.unitN, v.unitD, v.tsN, v.tsD, v.transpose, v.channel, v.instrument, v.barAcc, v.barSet⟩

def Globals.cursor (g : Globals) : Cursor :=
  ⟨g.curMs, g.keySharps, g.unitN, g.unitD, g.tsN, g.tsD, g.transpose, g.chan, g.instrument, g.barAcc, g.barSet⟩

/-- What the parser does. -/
inductive Event
  /-- Notes, fields and directives leave the working variables with some values. -/
  | work (c : Cursor) (bpm : Int) (msPerWhole : ℚ)
  /-- The body begins. -/
  | snapshot
  /-- A V: line. -/
  | voiceLine (ln : Line)
  /-- A [V:id] field that `ParseSeq` comes to. -/
  | inlineVoice (ln : Line) (start : Nat)

def exec (g : Globals) : Event → Globals
  | .work c bpm msPerWhole =>
    { g with
      curMs := c.curMs
      msPerWhole := msPerWhole
      bpm := bpm
      unitN := c.unitN
      unitD := c.unitD
      tsN := c.tsN
      tsD := c.tsD
      keySharps := c.keySharps
      transpose := c.transpose
      chan := c.channel
      instrument := c.instrument
      barAcc := c.barAcc
      barSet := c.barSet }
  | .snapshot => snapshotDefaults g
  | .voiceLine ln => handleVoiceLine ln g
  | .inlineVoice ln start => switchVoice g (inlineIdent ln start)

def run (es : List Event) (g : Globals) : Globals := es.foldl exec g

/-- The id that is switched to, empty if there is none. -/
def Event.ident : Event → List Code
  | .work _ _ _ => []
  | .snapshot => []
  | .voiceLine ln => lineIdent ln
  | .inlineVoice ln start => inlineIdent ln start

/-- The id of the current voice after some events. -/
def idFrom (id : List Code) (es : List Event) : List Code :=
  es.foldl (fun id e => if e.ident = [] then id else e.ident) id

def idAfter (es : List Event) : List Code := idFrom [code '1'] es

/-- The ids of a run, with that of the first voice. -/
def idents (es : List Event) : Finset (List Code) := insert [code '1'] ((es.map Event.ident).toFinset.erase [])

/-- The voices keep their state in a run. -/
structure KeepsVoices (g : Globals) (es : List Event) : Prop where
  /-- The same voice is current just when the id is the same. -/
  one : ∀ p q, p <+: es → q <+: es → ((run p (start g)).cur = (run q (start g)).cur ↔ idAfter p = idAfter q)
  /-- A switch to a voice that was current last before `q`, or still is, finds it as it was. -/
  back : ∀ p q e, p ++ q ++ [e] <+: es → (∀ r, r <+: q → r ≠ [] → idAfter (p ++ r) ≠ idAfter p) →
    e.ident = idAfter p → (run (p ++ q ++ [e]) (start g)).cursor = (run p (start g)).cursor

/-! ## Names -/

section names
variable {g : Globals} {ident : List Code} {i : Fin maxVoices}

/-- The id in the table. -/
def VoiceState.text (v : VoiceState) : List Code := v.name.takeWhile (· ≠ nul)

theorem nameEq_iff (vname ident : List Code) : nameEq vname ident = true ↔ vname.takeWhile (· ≠ nul) = ident := by
  have hlen : nameLen vname = (vname.takeWhile (· ≠ nul)).length := lengthOf_eq vname
  obtain ⟨rest, hrest⟩ := List.takeWhile_prefix (l := vname) (· ≠ nul)
  have hget : ∀ i, i < nameLen vname → vname[i]? = (vname.takeWhile (· ≠ nul))[i]? := fun i hi => by
    rw [hlen] at hi
    have happend := @List.getElem?_append_left _ _ rest _ hi
    rwa [hrest] at happend
  rw [nameEq]
  split_ifs with hne
  · refine ⟨fun h => False.elim h, fun h => ?_⟩
    rw [hlen, h] at hne
    exact absurd rfl hne
  · rw [not_not] at hne
    rw [List.all_eq_true]
    constructor
    · intro h
      refine List.ext_getElem? fun i => ?_
      by_cases hi : i < nameLen vname
      · rw [← hget i hi]
        simpa using h i (List.mem_range.2 hi)
      · rw [List.getElem?_eq_none (by omega), List.getElem?_eq_none (by omega)]
    · intro h i hi
      rw [hget i (List.mem_range.1 hi), h]
      exact decide_eq_true rfl

theorem copyName_take (ident : List Code) (k : Nat) (name : List Code) (hk : k ≤ 15) (hname : name.length = 16) :
    (copyName ident k name).1 = min 15 (k + ident.length) ∧
      (copyName ident k name).2.take (copyName ident k name).1 = name.take k ++ ident.take (15 - k) := by
  induction ident generalizing k name with
  | nil =>
    rw [copyName, List.take_nil, List.append_nil]
    exact ⟨by dsimp only; rw [List.length_nil]; omega, rfl⟩
  | cons c cs ih =>
    rw [copyName, List.length_cons]
    split_ifs with hroom
    · obtain ⟨hcount, htake⟩ := ih (k + 1) (name.set k c) (by omega) (by rw [List.length_set, hname])
      have hk' : k < (name.set k c).length := by
        rw [List.length_set]
        omega
      refine ⟨by rw [hcount]; omega, ?_⟩
      rw [htake, List.take_succ_eq_append_getElem hk', List.getElem_set_self, List.take_set_of_le le_rfl,
        show 15 - k = 15 - (k + 1) + 1 by omega, List.take_succ_cons, List.append_assoc, List.singleton_append]
    · obtain ⟨hcount, htake⟩ := ih k name hk hname
      refine ⟨by rw [hcount]; omega, ?_⟩
      rw [htake, show 15 - k = 0 by omega, List.take_zero, List.take_zero]

/-- A new voice has the first 15 characters of the id as its name. -/
theorem newVoice_text (g : Globals) (v : VoiceState) (hnul : nul ∉ ident) :
    (newVoice g ident v).text = ident.take 15 := by
  obtain ⟨hcount, htake⟩ := copyName_take ident 0 v.name (Nat.zero_le _) v.size
  have hlen := length_copyName ident 0 v.name
  rw [v.size] at hlen
  rw [VoiceState.text, newVoice]
  dsimp only
  generalize copyName ident 0 v.name = q at *
  have hcut : q.2.set q.1 nul = ident.take 15 ++ nul :: q.2.drop (q.1 + 1) := by
    rw [List.set_eq_take_append_cons_drop, if_pos (by omega), htake, List.take_zero, List.nil_append]
  rw [hcut, List.takeWhile_append_of_pos fun c hc => ?_, List.takeWhile_cons_of_neg (by simp), List.append_nil]
  simpa using fun h : c = nul => hnul (h ▸ List.mem_of_mem_take hc)

theorem findVoice_some {i : Fin maxVoices} (h : findVoice g ident = some i) :
    i.val < g.nVoices ∧ (g.voices i).used = true ∧ (g.voices i).text = ident := by
  have hi := List.find?_some h
  rw [Bool.and_eq_true, Bool.and_eq_true, decide_eq_true_eq, nameEq_iff] at hi
  exact hi

theorem findVoice_none (h : findVoice g ident = none) (hi : i.val < g.nVoices) (hused : (g.voices i).used = true) :
    (g.voices i).text ≠ ident := by
  intro htext
  have hnot := List.find?_eq_none.1 h i (List.mem_finRange i)
  rw [Bool.and_eq_true, Bool.and_eq_true, decide_eq_true_eq, nameEq_iff] at hnot
  exact hnot ⟨hi, hused, htext⟩

end names

/-! ## What a step preserves -/

section steps
variable {g : Globals} {S : Finset (List Code)} {ids : List (List Code)} {id ident : List Code} {i : Fin maxVoices}

/-- The voices of the table are those of `ids`, in that order and all in `S`. -/
structure Named (S : Finset (List Code)) (ids : List (List Code)) (g : Globals) : Prop where
  count : ids.length = g.nVoices
  nodup : ids.Nodup
  among : ∀ id ∈ ids, id ∈ S
  names : ∀ i : Fin maxVoices, i.val < g.nVoices → (g.voices i).used = true ∧ ids[i.val]? = some (g.voices i).text
  cur : g.cur.val < g.nVoices

/-- What there is of a voice: in the table, or in the working variables. -/
def kept (g : Globals) (i : Fin maxVoices) : Cursor := if i = g.cur then g.cursor else (g.voices i).cursor

theorem kept_cur (g : Globals) : kept g g.cur = g.cursor := if_pos rfl

theorem saveCur_cursor (h : g.cur.val < g.nVoices) (i : Fin maxVoices) :
    ((saveCur g).voices i).cursor = kept g i := by
  rw [saveCur, if_pos h, kept]
  dsimp only
  split_ifs with hi
  · rw [hi, Function.update_self]
    rfl
  · rw [Function.update_of_ne hi]

theorem saveCur_name (g : Globals) (i : Fin maxVoices) :
    ((saveCur g).voices i).used = (g.voices i).used ∧ ((saveCur g).voices i).text = (g.voices i).text := by
  rw [saveCur]
  split_ifs
  · dsimp only
    by_cases hi : i = g.cur
    · rw [hi, Function.update_self]
      exact ⟨rfl, rfl⟩
    · rw [Function.update_of_ne hi]
      exact ⟨rfl, rfl⟩
  · exact ⟨rfl, rfl⟩

theorem saveCur_nVoices (g : Globals) : (saveCur g).nVoices = g.nVoices := by
  rw [saveCur]
  split_ifs <;> rfl

theorem saveCur_cur (g : Globals) : (saveCur g).cur = g.cur := by
  rw [saveCur]
  split_ifs <;> rfl

theorem Named.saveCur (h : Named S ids g) : Named S ids (saveCur g) where
  count := by rw [saveCur_nVoices, h.count]
  nodup := h.nodup
  among := h.among
  names i hi := by
    rw [saveCur_nVoices] at hi
    rw [(saveCur_name g i).1, (saveCur_name g i).2]
    exact h.names i hi
  cur := by
    rw [saveCur_nVoices, saveCur_cur]
    exact h.cur

/-- Loading is all that is to do behind a choice of a voice. -/
theorem kept_loadCur (g : Globals) (j i : Fin maxVoices) :
    kept (loadCur { g with cur := j }) i = (g.voices i).cursor := by
  rw [kept]
  split_ifs with hi
  · rw [show i = j from hi]
    rfl
  · rfl

theorem Named.loadCur (h : Named S ids g) {j : Fin maxVoices} (hj : j.val < g.nVoices) :
    Named S ids (loadCur { g with cur := j }) :=
  ⟨h.count, h.nodup, h.among, h.names, hj⟩

theorem Named.getElem?_cur_iff (h : Named S ids g) (hi : i.val < g.nVoices) :
    ids[i.val]? = some ident ↔ (g.voices i).text = ident := by
  rw [(h.names i hi).2, Option.some_inj]

theorem length_le_card {S : Finset (List Code)} (hnodup : ids.Nodup) (hsub : ∀ id ∈ ids, id ∈ S) :
    ids.length ≤ S.card := by
  rw [← List.toFinset_card_of_nodup hnodup]
  exact Finset.card_le_card fun x hx => hsub x (List.mem_toFinset.1 hx)

theorem Named.nVoices_le (h : Named S ids g) (hS : S.card ≤ maxVoices) : g.nVoices ≤ maxVoices :=
  h.count ▸ (length_le_card h.nodup h.among).trans hS

theorem Named.nVoices_lt (h : Named S ids g) (hS : S.card ≤ maxVoices) (hid : ident ∈ S) (hnot : ident ∉ ids) :
    g.nVoices < maxVoices := by
  have hcard := length_le_card (List.nodup_cons.2 ⟨hnot, h.nodup⟩) (List.forall_mem_cons.2 ⟨hid, h.among⟩)
  rw [List.length_cons, h.count] at hcard
  omega

/-- A voice is made behind the others. -/
theorem createVoice_named (h : Named S ids g) (hid : ident ∈ S) (hnot : ident ∉ ids) (hlen : ident.length ≤ 15)
    (hnul : nul ∉ ident) (hroom : g.nVoices < maxVoices) :
    Named S (ids ++ [ident]) (createVoice g ident).1 ∧ (createVoice g ident).2.val = g.nVoices ∧
      (createVoice g ident).1.nVoices = g.nVoices + 1 ∧
      ∀ i : Fin maxVoices, i.val < g.nVoices → (createVoice g ident).1.voices i = g.voices i := by
  have hold : ∀ i : Fin maxVoices, i.val < g.nVoices → (createVoice g ident).1.voices i = g.voices i := by
    intro i hi
    rw [createVoice, dif_pos hroom]
    exact Function.update_of_ne (fun h => by rw [h] at hi; exact absurd hi (lt_irrefl _)) _ _
  have hnew : (createVoice g ident).1.voices ⟨g.nVoices, hroom⟩ =
      newVoice g ident (g.voices ⟨g.nVoices, hroom⟩) := by
    rw [createVoice, dif_pos hroom]
    exact Function.update_self _ _ _
  have hcount : (createVoice g ident).1.nVoices = g.nVoices + 1 := by rw [createVoice, dif_pos hroom]
  have hcur : (createVoice g ident).1.cur = g.cur := by rw [createVoice, dif_pos hroom]
  refine ⟨⟨?_, ?_, ?_, ?_, ?_⟩, by rw [createVoice, dif_pos hroom], hcount, hold⟩
  · rw [List.length_append, List.length_singleton, h.count, hcount]
  · exact List.nodup_append.2 ⟨h.nodup, List.nodup_singleton _, by
      rintro a ha b hb rfl
      exact hnot (List.mem_singleton.1 hb ▸ ha)⟩
  · intro x hx
    rcases List.mem_append.1 hx with hx | hx
    · exact h.among x hx
    · exact List.mem_singleton.1 hx ▸ hid
  · intro i hi
    rw [hcount] at hi
    rcases Nat.lt_or_eq_of_le (Nat.le_of_lt_succ hi) with hi | hi
    · rw [hold i hi, List.getElem?_append_left (h.count ▸ hi)]
      exact h.names i hi
    · obtain rfl : i = ⟨g.nVoices, hroom⟩ := Fin.ext hi
      rw [hnew, newVoice_text _ _ hnul, List.take_of_length_le hlen]
      refine ⟨rfl, ?_⟩
      change (ids ++ [ident])[g.nVoices]? = _
      rw [← h.count, List.getElem?_concat_length]
  · rw [hcount, hcur]
    exact h.cur.trans (Nat.lt_succ_self _)

/-- A switch finds the voice of the id or makes it, and every voice is as it was. -/
theorem switchVoice_named (h : Named S ids g) (hS : S.card ≤ maxVoices) (hid : ident ∈ S) (hne : ident ≠ [])
    (hlen : ident.length ≤ 15) (hnul : nul ∉ ident) :
    ∃ ids', ids <+: ids' ∧ Named S ids' (switchVoice g ident) ∧
      ids'[(switchVoice g ident).cur.val]? = some ident ∧
      ∀ i : Fin maxVoices, i.val < g.nVoices → kept (switchVoice g ident) i = kept g i := by
  have hsaved := h.saveCur
  have hcount := saveCur_nVoices g
  rw [switchVoice, if_neg (fun hlen => hne (List.length_eq_zero_iff.1 hlen))]
  dsimp only
  cases hfind : findVoice (saveCur g) ident with
  | some j =>
    obtain ⟨hj, -, htext⟩ := findVoice_some hfind
    refine ⟨ids, List.prefix_rfl, hsaved.loadCur hj, (hsaved.getElem?_cur_iff hj).2 htext, fun i hi => ?_⟩
    rw [kept_loadCur, saveCur_cursor h.cur]
  | none =>
    have hnot : ident ∉ ids := by
      intro hmem
      obtain ⟨k, hk, hget⟩ := List.getElem_of_mem hmem
      have hkv : k < (saveCur g).nVoices := hsaved.count ▸ hk
      have hle := hsaved.nVoices_le hS
      have hnames := hsaved.names ⟨k, by omega⟩ hkv
      refine findVoice_none hfind hkv hnames.1 ?_
      have hsome := hnames.2
      rw [List.getElem?_eq_getElem hk, hget] at hsome
      exact (Option.some_inj.1 hsome).symm
    have hroom := hsaved.nVoices_lt hS hid hnot
    obtain ⟨hnamed, hidx, hcount', hold⟩ := createVoice_named hsaved hid hnot hlen hnul hroom
    dsimp only
    refine ⟨ids ++ [ident], List.prefix_append _ _, hnamed.loadCur (by omega), ?_, fun i hi => ?_⟩
    · change (ids ++ [ident])[(createVoice (saveCur g) ident).2.val]? = _
      rw [hidx, ← hsaved.count, List.getElem?_concat_length]
    · rw [kept_loadCur, hold i (by omega), saveCur_cursor h.cur]

/-- A step of a run with short ids. -/
structure Short (S : Finset (List Code)) (e : Event) : Prop where
  among : e.ident ≠ [] → e.ident ∈ S
  length : e.ident.length ≤ 15

theorem Event.nul_notMem_ident (e : Event) : nul ∉ e.ident := by
  cases e with
  | work c bpm msPerWhole => exact List.not_mem_nil
  | snapshot => exact List.not_mem_nil
  | voiceLine ln =>
    exact fun h => ln.noNul (List.mem_of_mem_drop
      ((List.dropWhile_sublist _).mem ((List.takeWhile_sublist _).mem h)))
  | inlineVoice ln start => exact fun h => ln.noNul (List.mem_of_mem_drop ((List.takeWhile_sublist _).mem h))

/-- The events with an id are switches. -/
theorem exec_eq_switchVoice {e : Event} (h : e.ident ≠ []) (g : Globals) : exec g e = switchVoice g e.ident := by
  cases e with
  | work c bpm msPerWhole => exact absurd rfl h
  | snapshot => exact absurd rfl h
  | voiceLine ln => rfl
  | inlineVoice ln start => rfl

/-- The others leave the table alone. -/
theorem exec_of_ident_eq_nil {e : Event} (h : e.ident = []) (g : Globals) :
    (exec g e).voices = g.voices ∧ (exec g e).nVoices = g.nVoices ∧ (exec g e).cur = g.cur := by
  cases e with
  | work c bpm msPerWhole => exact ⟨rfl, rfl, rfl⟩
  | snapshot => exact ⟨rfl, rfl, rfl⟩
  | voiceLine ln =>
    rw [show exec g (.voiceLine ln) = g from if_pos (List.length_eq_zero_iff.2 h)]
    exact ⟨rfl, rfl, rfl⟩
  | inlineVoice ln start =>
    rw [show exec g (.inlineVoice ln start) = g from if_pos (List.length_eq_zero_iff.2 h)]
    exact ⟨rfl, rfl, rfl⟩

/-- The current voice is that of `id`. -/
structure At (S : Finset (List Code)) (ids : List (List Code)) (id : List Code) (g : Globals) : Prop where
  named : Named S ids g
  current : ids[g.cur.val]? = some id

theorem exec_at {e : Event} (h : At S ids id g) (hS : S.card ≤ maxVoices) (he : Short S e) :
    ∃ ids', ids <+: ids' ∧ At S ids' (if e.ident = [] then id else e.ident) (exec g e) ∧
      ∀ i : Fin maxVoices, i.val < g.nVoices → e.ident ≠ [] ∨ i ≠ g.cur → kept (exec g e) i = kept g i := by
  by_cases hne : e.ident = []
  · obtain ⟨hvoices, hcount, hcur⟩ := exec_of_ident_eq_nil hne g
    have hn := h.named
    rw [if_pos hne]
    refine ⟨ids, List.prefix_rfl, ⟨⟨?_, hn.nodup, hn.among, ?_, ?_⟩, ?_⟩, fun i _ hi => ?_⟩
    · rw [hcount, hn.count]
    · rw [hcount, hvoices]
      exact hn.names
    · rw [hcount, hcur]
      exact hn.cur
    · rw [hcur]
      exact h.current
    · have hi : i ≠ g.cur := hi.resolve_left (not_not.2 hne)
      rw [kept, kept, hcur, hvoices, if_neg hi, if_neg hi]
  · rw [if_neg hne, exec_eq_switchVoice hne]
    obtain ⟨ids', hpre, hnamed, hcur, hkept⟩ :=
      switchVoice_named h.named hS (he.among hne) hne he.length e.nul_notMem_ident
    exact ⟨ids', hpre, ⟨hnamed, hcur⟩, fun i hi _ => hkept i hi⟩

/-- The voice of an id that is not current in a run is as it was before the run. -/
theorem run_at {es : List Event} (hS : S.card ≤ maxVoices) (hes : ∀ e ∈ es, Short S e) (h : At S ids id g) :
    ∃ ids', ids <+: ids' ∧ At S ids' (idFrom id es) (run es g) ∧
      ∀ i : Fin maxVoices, i.val < g.nVoices →
        (∀ r, r <+: es → r ≠ [] → ids[i.val]? ≠ some (idFrom id r)) → kept (run es g) i = kept g i := by
  induction es generalizing g ids id with
  | nil => exact ⟨ids, List.prefix_rfl, h, fun _ _ _ => rfl⟩
  | cons e es ih =>
    rw [List.forall_mem_cons] at hes
    obtain ⟨ids₁, hpre₁, hat₁, hkept₁⟩ := exec_at h hS hes.1
    obtain ⟨ids₂, hpre₂, hat₂, hkept₂⟩ := ih hes.2 hat₁
    have hcount := hpre₁.length_le
    rw [h.named.count, hat₁.named.count] at hcount
    refine ⟨ids₂, hpre₁.trans hpre₂, hat₂, fun i hi haway => ?_⟩
    have hget : ids₁[i.val]? = ids[i.val]? := by
      obtain ⟨rest, rfl⟩ := hpre₁
      exact List.getElem?_append_left (h.named.count ▸ hi)
    have hfirst : e.ident ≠ [] ∨ i ≠ g.cur := by
      by_contra hstay
      rw [not_or, not_not, not_not] at hstay
      obtain ⟨hnil, rfl⟩ := hstay
      refine haway [e] (List.prefix_append [e] es) (List.cons_ne_nil _ _) ?_
      rw [h.current, idFrom, List.foldl_cons, List.foldl_nil, if_pos hnil]
    have hrest : kept (run es (exec g e)) i = kept (exec g e) i := by
      refine hkept₂ i (hi.trans_le hcount) fun r hr hne => ?_
      rw [hget]
      exact haway (e :: r) ((List.prefix_cons_inj e).2 hr) (List.cons_ne_nil _ _)
    exact hrest.trans (hkept₁ i hi hfirst)

theorem start_at (g : Globals) (hone : [code '1'] ∈ S) : At S [[code '1']] [code '1'] (start g) := by
  refine ⟨⟨rfl, List.nodup_singleton _, ?_, fun i hi => ?_, Nat.one_pos⟩, rfl⟩
  · intro x hx
    rwa [List.mem_singleton.1 hx]
  · have hsize := (g.voices 0).size
    obtain rfl : i = 0 := Fin.ext (Nat.lt_one_iff.1 hi)
    rw [start]
    dsimp only
    rw [Function.update_self]
    refine ⟨rfl, ?_⟩
    rw [VoiceState.text]
    dsimp only
    generalize (g.voices 0).name = name at hsize
    rcases name with _ | ⟨a, _ | ⟨b, name⟩⟩
    · cases hsize
    · cases hsize
    · rfl

theorem run_append (p q : List Event) (g : Globals) : run (p ++ q) g = run q (run p g) := List.foldl_append

theorem idFrom_append (id : List Code) (p q : List Event) : idFrom id (p ++ q) = idFrom (idFrom id p) q :=
  List.foldl_append

theorem idFrom_ne_nil {id : List Code} (h : id ≠ []) (es : List Event) : idFrom id es ≠ [] := by
  induction es generalizing id with
  | nil => exact h
  | cons e es ih =>
    rw [idFrom, List.foldl_cons]
    split_ifs with he
    · exact ih h
    · exact ih he

/-- The id of an index of the table stays the same. -/
theorem At.getElem?_of_prefix {ids' : List (List Code)} (h : At S ids id g) (hpre : ids <+: ids') :
    ids'[g.cur.val]? = some id := by
  obtain ⟨rest, rfl⟩ := hpre
  rw [List.getElem?_append_left (h.named.count ▸ h.named.cur), h.current]

/-- The current voice is the one of the id. -/
theorem At.cur_eq (h : At S ids id g) {i : Fin maxVoices} (hi : ids[i.val]? = some id) : g.cur = i := by
  have hlt : g.cur.val < ids.length := h.named.count ▸ h.named.cur
  exact Fin.ext ((List.getElem?_inj hlt h.named.nodup).1 (h.current.trans hi.symm))

/-- At the same time in two prefixes the voices are the same just if the ids are. -/
theorem cur_eq_iff {p r : List Event} (hS : S.card ≤ maxVoices) (hes : ∀ e ∈ p ++ r, Short S e)
    (hone : [code '1'] ∈ S) (g : Globals) :
    (run p (start g)).cur = (run (p ++ r) (start g)).cur ↔ idAfter p = idAfter (p ++ r) := by
  rw [List.forall_mem_append] at hes
  obtain ⟨ids₁, -, hat₁, -⟩ := run_at hS hes.1 (start_at g hone)
  obtain ⟨ids₂, hpre, hat₂, -⟩ := run_at hS hes.2 hat₁
  rw [← run_append, ← idFrom_append] at hat₂
  have hcur : ids₂[(run p (start g)).cur.val]? = some (idAfter p) := hat₁.getElem?_of_prefix hpre
  constructor
  · intro h
    rw [h] at hcur
    exact Option.some_inj.1 (hcur.symm.trans hat₂.current)
  · intro h
    rw [h] at hcur
    exact (hat₂.cur_eq hcur).symm

/-- With short ids the voices keep their state. -/
theorem voices_keep (g : Globals) (es : List Event) (hfew : (idents es).card ≤ maxVoices)
    (hshort : ∀ e ∈ es, e.ident.length ≤ 15) : KeepsVoices g es := by
  have hone : [code '1'] ∈ idents es := Finset.mem_insert_self _ _
  have hes : ∀ e ∈ es, Short (idents es) e := fun e he => ⟨fun hne => Finset.mem_insert_of_mem
    (Finset.mem_erase.2 ⟨hne, List.mem_toFinset.2 (List.mem_map_of_mem he)⟩), hshort e he⟩
  constructor
  · intro p q hp hq
    rcases List.prefix_or_prefix_of_prefix hp hq with ⟨r, rfl⟩ | ⟨r, rfl⟩
    · exact cur_eq_iff hfew (fun e he => hes e (hq.subset he)) hone g
    · exact eq_comm.trans ((cur_eq_iff hfew (fun e he => hes e (hp.subset he)) hone g).trans eq_comm)
  · intro p q e hpre haway hback
    have hshort : ∀ e' ∈ p ++ q ++ [e], Short (idents es) e' := fun e' he => hes e' (hpre.subset he)
    rw [List.forall_mem_append, List.forall_mem_append] at hshort
    obtain ⟨⟨hp, hq⟩, he⟩ := hshort
    obtain ⟨ids₁, -, hat₁, -⟩ := run_at hfew hp (start_at g hone)
    obtain ⟨ids₂, hpre₂, hat₂, hkept₂⟩ := run_at hfew hq hat₁
    obtain ⟨ids₃, hpre₃, hat₃, hkept₃⟩ := exec_at hat₂ hfew (he e (List.mem_singleton_self e))
    have hne : e.ident ≠ [] := hback ▸ idFrom_ne_nil (List.cons_ne_nil _ _) p
    rw [if_neg hne] at hat₃
    have hid : ids₃[(run p (start g)).cur.val]? = some e.ident := by
      rw [hback]
      exact hat₁.getElem?_of_prefix (hpre₂.trans hpre₃)
    have hcur := hat₃.cur_eq hid
    have hcount := hpre₂.length_le
    rw [hat₁.named.count, hat₂.named.count] at hcount
    have hq' := hkept₂ (run p (start g)).cur hat₁.named.cur fun r hr hr' h => by
      rw [hat₁.current, Option.some_inj, ← idFrom_append] at h
      exact haway r hr hr' h.symm
    have he' := hkept₃ (run p (start g)).cur (hat₁.named.cur.trans_le hcount) (.inl hne)
    rw [run_append, run_append]
    change (exec (run q (run p (start g))) e).cursor = _
    rw [← kept_cur, hcur, he', hq', kept_cur]

/-- Nothing was parsed yet. -/
def blank : Globals :=
  { curMs := 0, msPerWhole := 0, bpm := 0, unitN := 0, unitD := 0, tsN := 0, tsD := 0, keySharps := 0, transpose := 0
    chan := 0, instrument := 0, barAcc := fun _ => 0, barSet := fun _ => false
    voices := fun _ => ⟨false, List.replicate 16 nul, 0, 0, 0, 0, 0, 0, 0, 0, 0, fun _ => 0, fun _ => false, rfl⟩
    nVoices := 1, cur := 0, nextChan := 0
    defKey := 0, defUnitN := 0, defUnitD := 0, defTsN := 0, defTsD := 0, defInstr := 0 }

/-- A line of ASCII characters. -/
def lineOf (s : String) (h : nul ∉ s.toList.map code) : Line := ⟨s.toList.map code, h⟩

/-- Two voices, by V: lines and a field. -/
def twoVoices : List Event :=
  [.voiceLine (lineOf "V:2" (by decide)), .inlineVoice (lineOf "[V:1] C" (by decide)) 3,
    .voiceLine (lineOf "V:2 bass" (by decide))]

theorem voices_keep_two : KeepsVoices blank twoVoices := voices_keep blank twoVoices (by decide) (by decide)

/-- A voice with an id of 16 characters, that of the first voice, and the one with the long id again. -/
def longIdent : List Event :=
  [.voiceLine (lineOf "V:ABCDEFGHIJKLMNOP" (by decide)), .voiceLine (lineOf "V:1" (by decide)),
    .voiceLine (lineOf "V:ABCDEFGHIJKLMNOP" (by decide))]

/-- The long id gets a second voice. -/
theorem longIdent_forgets : (idents longIdent).card ≤ maxVoices ∧ ¬ KeepsVoices blank longIdent := by
  refine ⟨by decide, fun h => ?_⟩
  have hone := (h.one (longIdent.take 1) longIdent (List.take_prefix _ _) List.prefix_rfl).2 (by decide)
  exact absurd hone (by decide)

end steps

end NewM2.Winrt.Abc
