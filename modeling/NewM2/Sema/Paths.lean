import Mathlib
import NewM2.Sema.Class

/-! # Paths

The control flow of a body, with what it does to its variables, and what holds on every path through it. A path
may stop anywhere. `Sound` says of a variable that a place where a pass takes it for DISPOSEd is never reached with
the variable live, and composes along the control flow. -/

namespace NewM2.HeapCheck
open Sema

/-! ## Variables -/

/-- What has become of a variable. -/
inductive Fate
  /-- Not DISPOSEd, or assigned since. -/
  | live
  | disposed
  /-- Assigned since, where the pass does not follow, or another variable of this name. -/
  | lost
deriving Repr, DecidableEq

abbrev Fates := String → Fate

namespace Fates

def set (d : Fates) (p : String) (f : Fate) : Fates := Function.update d p f

/-- Some variables may have been assigned without being seen. -/
def hide (d : Fates) (w : String → Bool) : Fates := fun p => if w p then .lost else d p

/-- What was not live before a part that the pass forgets is not live behind it. -/
def carry (d₀ d : Fates) : Fates := fun p => if d₀ p ≠ .live ∧ d p = .live then .lost else d p

/-- Behind a part that the pass does not look at. -/
def unfollowed (d : Fates) : Fates := fun p => if d p = .live then .lost else d p

/-- Behind a scope the names are those of before. -/
def restore (d₀ d : Fates) (w : String → Bool) : Fates := fun p => if w p then d₀ p else d p

end Fates

inductive Access
  | read
  | dispose
  | write
  /-- Passed to a VAR parameter. -/
  | reference
  /-- Not evaluated. -/
  | named
deriving Repr, DecidableEq

/-- The value of the variable is taken. -/
def Access.reads : Access → Bool
  | read | dispose => true
  | write | reference | named => false

/-- A use of a variable on a path. -/
structure Use where
  name : String
  span : Span
  access : Access
  fate : Fate

/-! ## Control flow -/

inductive Act
  | use (p : String) (span : Span) (access : Access)
  /-- Assigned, or NEW. -/
  | set (p : String)
  | dispose (p : String)
  /-- Any of these may be assigned, and the pass does not see it. -/
  | hidden (may : String → Bool)

/-- A use, or what a call does. -/
def Act.quiet : Act → Bool
  | use _ _ _ | hidden _ => true
  | set _ | dispose _ => false

inductive Code
  | acts (l : List Act)
  | exit
  | return_
  | raise
  | retry
  | seq (a b : Code)
  | choose (a b : Code)
  /-- Until EXIT. -/
  | loop (a : Code)
  /-- The pass forgets what is done here. -/
  | forget (a : Code)
  /-- Some names stand for other variables. -/
  | scope (w : String → Bool) (a : Code)
  | protect (a handler : Code)
  | finally_ (a b : Code)

inductive Out
  | normal | exit | return_ | raise | retry
  /-- The path is not followed further. -/
  | cut
deriving Repr, DecidableEq

/-- An exception, or the end of the path. -/
def Out.Stops (out : Out) : Prop := out = .raise ∨ out = .cut

theorem Out.Stops.ne_normal {out : Out} (h : out.Stops) : out ≠ .normal := by
  rcases h with rfl | rfl <;> exact nofun

inductive Act.Step : Act → Fates → List Use → Fates → Prop
  | use {p : String} {span : Span} {access : Access} {d : Fates} : Step (.use p span access) d [⟨p, span, access, d p⟩] d
  | set {p : String} {d : Fates} : Step (.set p) d [] (d.set p .live)
  | dispose {p : String} {d : Fates} : Step (.dispose p) d [] (d.set p .disposed)
  | hidden {may w : String → Bool} {d : Fates} : (∀ p, w p → may p) → Step (.hidden may) d [] (d.hide w)

inductive Exec : Code → Fates → List Use → Out → Fates → Prop
  | stop {a : Code} {out : Out} {d : Fates} : out.Stops → Exec a d [] out d
  | done {d : Fates} : Exec (.acts []) d [] .normal d
  | act {a : Act} {l : List Act} {d d₁ d' : Fates} {us us' : List Use} {out : Out} :
      a.Step d us d₁ → Exec (.acts l) d₁ us' out d' → Exec (.acts (a :: l)) d (us ++ us') out d'
  | exit {d : Fates} : Exec .exit d [] .exit d
  | return_ {d : Fates} : Exec .return_ d [] .return_ d
  | retry {d : Fates} : Exec .retry d [] .retry d
  | seq {a b : Code} {d d₁ d' : Fates} {us us' : List Use} {out : Out} :
      Exec a d us .normal d₁ → Exec b d₁ us' out d' → Exec (.seq a b) d (us ++ us') out d'
  | first {a b : Code} {d d' : Fates} {us : List Use} {out : Out} :
      Exec a d us out d' → out ≠ .normal → Exec (.seq a b) d us out d'
  | left {a b : Code} {d d' : Fates} {us : List Use} {out : Out} :
      Exec a d us out d' → Exec (.choose a b) d us out d'
  | right {a b : Code} {d d' : Fates} {us : List Use} {out : Out} :
      Exec b d us out d' → Exec (.choose a b) d us out d'
  | again {a : Code} {d d₁ d' : Fates} {us us' : List Use} {out : Out} :
      Exec a d us .normal d₁ → Exec (.loop a) (d.carry d₁) us' out d' → Exec (.loop a) d (us ++ us') out d'
  | leave {a : Code} {d d' : Fates} {us : List Use} :
      Exec a d us .exit d' → Exec (.loop a) d us .normal (d.carry d')
  | pass {a : Code} {d d' : Fates} {us : List Use} {out : Out} :
      Exec a d us out d' → out ≠ .normal → out ≠ .exit → Exec (.loop a) d us out d'
  | forget {a : Code} {d d' : Fates} {us : List Use} {out : Out} :
      Exec a d us out d' → Exec (.forget a) d us out (d.carry d')
  | scope {a : Code} {w : String → Bool} {d d' : Fates} {us : List Use} {out : Out} :
      Exec a (d.hide w) us out d' → Exec (.scope w a) d us out (d.restore d' w)
  | unhandled {a h : Code} {d d' : Fates} {us : List Use} {out : Out} :
      Exec a d us out d' → Exec (.protect a h) d us out d'
  | handled {a h : Code} {d d₁ d' : Fates} {us us' : List Use} {out : Out} :
      Exec a d us .raise d₁ → Exec h d₁ us' out d' → out ≠ .retry →
      Exec (.protect a h) d (us ++ us') out d'.unfollowed
  | retried {a h : Code} {d d₁ d₂ d' : Fates} {us us' us'' : List Use} {out : Out} :
      Exec a d us .raise d₁ → Exec h d₁ us' .retry d₂ → Exec (.protect a h) (d.carry d₂) us'' out d' →
      Exec (.protect a h) d (us ++ (us' ++ us'')) out d'
  | unfinished {a b : Code} {d d' : Fates} {us : List Use} : Exec a d us .cut d' → Exec (.finally_ a b) d us .cut d'
  | finished {a b : Code} {d d₁ d' : Fates} {us us' : List Use} {out : Out} :
      Exec a d us out d₁ → Exec b d₁ us' .normal d' → Exec (.finally_ a b) d (us ++ us') out d'.unfollowed
  | left_finally {a b : Code} {d d₁ d' : Fates} {us us' : List Use} {out out' : Out} :
      Exec a d us out d₁ → Exec b d₁ us' out' d' → out' ≠ .normal →
      Exec (.finally_ a b) d (us ++ us') out' d'.unfollowed

/-! ## The uses -/

def Act.place? : Act → Option (String × Span)
  | use p span _ => some (p, span)
  | set _ | dispose _ | hidden _ => none

def Code.uses : Code → List (String × Span)
  | acts l => l.filterMap Act.place?
  | exit | return_ | raise | retry => []
  | seq a b | choose a b | protect a b | finally_ a b => a.uses ++ b.uses
  | loop a | forget a | scope _ a => a.uses

section exec
variable {a b : Code} {act : Act} {l : List Act} {d d₀ d₁ d' : Fates} {us : List Use} {out : Out} {o : Use} {w : String → Bool}
  {p : String} {span : Span}

theorem Act.Step.place? (h : act.Step d us d') (ho : o ∈ us) : act.place? = some (o.name, o.span) := by
  cases h with
  | use =>
    rw [List.mem_singleton.1 ho]
    rfl
  | set | dispose | hidden => cases ho

theorem Exec.mem_uses (h : Exec a d us out d') (ho : o ∈ us) : (o.name, o.span) ∈ a.uses := by
  induction h with
  | stop | done | exit | return_ | retry => cases ho
  | act hstep _ ih =>
    rcases List.mem_append.1 ho with ho | ho
    · exact List.mem_filterMap.2 ⟨_, List.mem_cons_self .., hstep.place? ho⟩
    · obtain ⟨act, hact, hplace⟩ := List.mem_filterMap.1 (ih ho)
      exact List.mem_filterMap.2 ⟨act, List.mem_cons_of_mem _ hact, hplace⟩
  | seq _ _ ih ih' | handled _ _ _ ih ih' | finished _ _ ih ih' | left_finally _ _ _ ih ih' =>
    exact List.mem_append.2 ((List.mem_append.1 ho).imp ih ih')
  | first _ _ ih | left _ ih | unhandled _ ih | unfinished _ ih => exact List.mem_append_left _ (ih ho)
  | right _ ih => exact List.mem_append_right _ (ih ho)
  | again _ _ ih ih' => exact (List.mem_append.1 ho).elim ih ih'
  | leave _ ih | pass _ _ _ ih | forget _ ih | scope _ ih => exact ih ho
  | retried _ _ _ ih ih' ih'' =>
    rcases List.mem_append.1 ho with ho | ho
    · exact List.mem_append_left _ (ih ho)
    · exact (List.mem_append.1 ho).elim (fun ho => List.mem_append_right _ (ih' ho)) ih''

/-! ## Fates -/

namespace Fates

theorem carry_ne_live (h : d₀ p ≠ .live) : d₀.carry d p ≠ .live := by
  unfold carry
  split_ifs with hlive
  · exact nofun
  · exact fun hd => hlive ⟨h, hd⟩

theorem unfollowed_ne_live : d.unfollowed p ≠ .live := by
  unfold unfollowed
  split_ifs with hlive
  · exact nofun
  · exact hlive

theorem hide_ne_live (h : d p ≠ .live) : d.hide w p ≠ .live := by
  unfold hide
  split_ifs
  · exact nofun
  · exact h

end Fates

/-! ## What is sound -/

/-- Where the pass takes a variable for DISPOSEd it is not live. -/
def Agrees (disposed : Prop) (f : Fate) : Prop := disposed → f ≠ .live

/-- From where the pass takes `p` for DISPOSEd if `pre`, to where it does so if `post`, no place of `flagged` is
reached at which `p` is read alive. -/
def Sound (p : String) (flagged : Span → Prop) (pre : Prop) (a : Code) (post : Prop) : Prop :=
  ∀ d us out d', Exec a d us out d' → Agrees pre (d p) →
    (∀ o ∈ us, o.name = p → flagged o.span → o.access.reads → o.fate ≠ .live) ∧ (out = .normal → Agrees post (d' p))

end exec

namespace Sound
variable {p : String} {flagged flagged' : Span → Prop} {pre pre' post post' mid : Prop} {a b h : Code} {l : List Act}
  {act : Act} {w : String → Bool}

/-- Of the places only those matter that the code has. -/
theorem mono (hs : Sound p flagged' pre' a post') (hflagged : ∀ span, (p, span) ∈ a.uses → flagged span → flagged' span)
    (hpre : pre' → pre) (hpost : post → post') : Sound p flagged pre a post := by
  intro d us out d' hexec hd
  obtain ⟨huses, hnormal⟩ := hs d us out d' hexec (hd ∘ hpre)
  refine ⟨fun o ho hname hspan => huses o ho hname (hflagged _ ?_ hspan), fun hout => hnormal hout ∘ hpost⟩
  exact hname ▸ hexec.mem_uses ho

theorem nil : Sound p flagged pre (.acts []) pre := by
  intro d us out d' hexec hd
  cases hexec with
  | stop | done => exact ⟨fun o ho => (by cases ho), fun _ => hd⟩

/-- One act: what it uses, and what it makes of the variable. -/
theorem cons (hact : ∀ d us d', act.Step d us d' → Agrees pre (d p) →
      (∀ o ∈ us, o.name = p → flagged o.span → o.access.reads → o.fate ≠ .live) ∧ Agrees mid (d' p))
    (hs : Sound p flagged mid (.acts l) post) : Sound p flagged pre (.acts (act :: l)) post := by
  intro d us out d' hexec hd
  cases hexec with
  | stop hstop => exact ⟨fun o ho => (by cases ho), fun hout => absurd hout hstop.ne_normal⟩
  | act hstep hexec =>
    obtain ⟨huses, hd₁⟩ := hact _ _ _ hstep hd
    obtain ⟨huses', hpost⟩ := hs _ _ _ _ hexec hd₁
    exact ⟨fun o ho => (List.mem_append.1 ho).elim (huses o) (huses' o), hpost⟩

theorem set (q : String) (hpost : post → pre ∧ q ≠ p) : Sound p flagged pre (.acts [.set q]) post := by
  refine cons (fun d us d' hstep hd => ?_) nil
  cases hstep
  refine ⟨fun o ho => (by cases ho), fun h => ?_⟩
  unfold Fates.set
  rw [Function.update_of_ne (hpost h).2.symm]
  exact hd (hpost h).1

theorem dispose (q : String) (hpost : post → q ≠ p → pre) : Sound p flagged pre (.acts [.dispose q]) post := by
  refine cons (fun d us d' hstep hd => ?_) nil
  cases hstep
  refine ⟨fun o ho => (by cases ho), fun h => ?_⟩
  unfold Fates.set
  by_cases hq : q = p
  · rw [hq, Function.update_self]
    exact nofun
  · rw [Function.update_of_ne (Ne.symm hq)]
    exact hd (hpost h hq)

/-- The uses of an expression, and what the calls in it assign. -/
theorem quiet (hquiet : l.all Act.quiet)
    (hflagged : ∀ span access, access.reads → .use p span access ∈ l → flagged span → pre) :
    Sound p flagged pre (.acts l) pre := by
  induction l with
  | nil => exact nil
  | cons act l ih =>
    rw [List.all_cons, Bool.and_eq_true] at hquiet
    have hrest := ih hquiet.2 fun span access hreads hmem => hflagged span access hreads (List.mem_cons_of_mem _ hmem)
    refine cons (fun d us d' hstep hd => ?_) hrest
    cases hstep with
    | @use q span access =>
      refine ⟨fun o ho hname hspan hreads => ?_, hd⟩
      obtain rfl := List.mem_singleton.1 ho
      obtain rfl : q = p := hname
      exact hd (hflagged span access hreads (List.mem_cons_self ..) hspan)
    | hidden => exact ⟨fun o ho => (by cases ho), fun h => Fates.hide_ne_live (hd h)⟩
    | set | dispose => exact absurd hquiet.1 Bool.false_ne_true

theorem seq (ha : Sound p flagged pre a mid) (hb : Sound p flagged mid b post) : Sound p flagged pre (.seq a b) post := by
  intro d us out d' hexec hd
  cases hexec with
  | stop hstop => exact ⟨fun o ho => (by cases ho), fun hout => absurd hout hstop.ne_normal⟩
  | seq hexec hexec' =>
    obtain ⟨huses, hmid⟩ := ha _ _ _ _ hexec hd
    obtain ⟨huses', hpost⟩ := hb _ _ _ _ hexec' (hmid rfl)
    exact ⟨fun o ho => (List.mem_append.1 ho).elim (huses o) (huses' o), hpost⟩
  | first hexec hout => exact ⟨(ha _ _ _ _ hexec hd).1, fun h => absurd h hout⟩

theorem choose (ha : Sound p flagged pre a post) (hb : Sound p flagged pre b post) :
    Sound p flagged pre (.choose a b) post := by
  intro d us out d' hexec hd
  cases hexec with
  | stop hstop => exact ⟨fun o ho => (by cases ho), fun hout => absurd hout hstop.ne_normal⟩
  | left hexec => exact ha _ _ _ _ hexec hd
  | right hexec => exact hb _ _ _ _ hexec hd

/-- Nothing follows. -/
theorem jump (ha : a ∈ [.exit, .return_, .raise, .retry]) : Sound p flagged pre a post := by
  intro d us out d' hexec _
  have hnil : us = [] ∧ out ≠ .normal := by
    simp only [List.mem_cons, List.not_mem_nil, or_false] at ha
    rcases ha with rfl | rfl | rfl | rfl <;> cases hexec
    all_goals first | exact ⟨rfl, Out.Stops.ne_normal ‹_›⟩ | exact ⟨rfl, nofun⟩
  rw [hnil.1]
  exact ⟨fun o ho => (by cases ho), fun hout => absurd hout hnil.2⟩

/-- The pass takes the variable for what it was before the loop. -/
theorem loop (ha : Sound p flagged pre a post) : Sound p flagged pre (.loop a) pre := by
  intro d us out d' hexec
  generalize hcode : Code.loop a = code at hexec
  induction hexec with
  | stop hstop => exact fun _ => ⟨fun o ho => (by cases ho), fun hout => absurd hout hstop.ne_normal⟩
  | again hexec _ _ ih =>
    cases hcode
    intro hd
    obtain ⟨huses, hnormal⟩ := ih rfl fun h => Fates.carry_ne_live (hd h)
    exact ⟨fun o ho => (List.mem_append.1 ho).elim ((ha _ _ _ _ hexec hd).1 o) (huses o), hnormal⟩
  | leave hexec =>
    cases hcode
    exact fun hd => ⟨(ha _ _ _ _ hexec hd).1, fun _ h => Fates.carry_ne_live (hd h)⟩
  | pass hexec hout =>
    cases hcode
    exact fun hd => ⟨(ha _ _ _ _ hexec hd).1, fun h => absurd h hout⟩
  | _ => cases hcode

theorem forget (ha : Sound p flagged pre a post) : Sound p flagged pre (.forget a) pre := by
  intro d us out d' hexec hd
  cases hexec with
  | stop hstop => exact ⟨fun o ho => (by cases ho), fun hout => absurd hout hstop.ne_normal⟩
  | forget hexec => exact ⟨(ha _ _ _ _ hexec hd).1, fun _ h => Fates.carry_ne_live (hd h)⟩

theorem scope (ha : Sound p flagged pre a post) (hpost : post → pre) : Sound p flagged pre (.scope w a) post := by
  intro d us out d' hexec hd
  cases hexec with
  | stop hstop => exact ⟨fun o ho => (by cases ho), fun hout => absurd hout hstop.ne_normal⟩
  | scope hexec =>
    obtain ⟨huses, hnormal⟩ := ha _ _ _ _ hexec fun h => Fates.hide_ne_live (hd h)
    refine ⟨huses, fun hout h => ?_⟩
    unfold Fates.restore
    split_ifs
    · exact hd (hpost h)
    · exact hnormal hout h

/-- Nothing is flagged in the handler. -/
theorem protect (ha : Sound p flagged pre a post) (hh : ∀ span, (p, span) ∈ h.uses → ¬ flagged span) :
    Sound p flagged pre (.protect a h) post := by
  have hno {d us out d'} (hexec : Exec h d us out d') : ∀ o ∈ us, o.name = p → flagged o.span → o.access.reads →
      o.fate ≠ .live := fun o ho hname hspan => absurd hspan (hh _ (hname ▸ hexec.mem_uses ho))
  intro d us out d' hexec
  generalize hcode : Code.protect a h = code at hexec
  induction hexec with
  | stop hstop => exact fun _ => ⟨fun o ho => (by cases ho), fun hout => absurd hout hstop.ne_normal⟩
  | unhandled hexec =>
    cases hcode
    exact ha _ _ _ _ hexec
  | handled hexec hexec' =>
    cases hcode
    exact fun hd => ⟨fun o ho => (List.mem_append.1 ho).elim ((ha _ _ _ _ hexec hd).1 o) (hno hexec' o),
      fun _ _ => Fates.unfollowed_ne_live⟩
  | retried hexec hexec' _ _ _ ih =>
    cases hcode
    intro hd
    obtain ⟨huses, hnormal⟩ := ih rfl fun h => Fates.carry_ne_live (hd h)
    refine ⟨fun o ho => ?_, hnormal⟩
    rcases List.mem_append.1 ho with ho | ho
    · exact (ha _ _ _ _ hexec hd).1 o ho
    · exact (List.mem_append.1 ho).elim (hno hexec' o) (huses o)
  | _ => cases hcode

/-- Nothing is flagged behind FINALLY. -/
theorem finally_ (ha : Sound p flagged pre a post) (hb : ∀ span, (p, span) ∈ b.uses → ¬ flagged span) :
    Sound p flagged pre (.finally_ a b) post := by
  have hno {d us out d'} (hexec : Exec b d us out d') : ∀ o ∈ us, o.name = p → flagged o.span → o.access.reads →
      o.fate ≠ .live := fun o ho hname hspan => absurd hspan (hb _ (hname ▸ hexec.mem_uses ho))
  intro d us out d' hexec hd
  cases hexec with
  | stop hstop => exact ⟨fun o ho => (by cases ho), fun hout => absurd hout hstop.ne_normal⟩
  | unfinished hexec => exact ⟨(ha _ _ _ _ hexec hd).1, nofun⟩
  | finished hexec hexec' | left_finally hexec hexec' =>
    exact ⟨fun o ho => (List.mem_append.1 ho).elim ((ha _ _ _ _ hexec hd).1 o) (hno hexec' o),
      fun _ _ => Fates.unfollowed_ne_live⟩

end Sound

end NewM2.HeapCheck
