import Mathlib
import NewM2.Lexer.Positions

/-!
# The pieces of a text between directives

The pass over a text goes from piece to piece: a comment, a line comment, a string, a pragma or one byte
of anything else. `Piece` lists them before what follows them, together with the pragmas in them; the
pass copies a piece in its mode and lets the pragmas define symbols where that mode is to keep the text
(`Piece.run`), and the next thing it meets is a piece or a directive (`exists_piece`).
-/

namespace NewM2.Lexer
open Preproc

/-! ## What pragmas define -/

/-- The names of a `VERSION:` pragma. -/
def pragmaNames (body : Bytes) : List Bytes :=
  match matches? (ascii "/VERSION:") (trim body) with
  | some names => ((names.splitOn 44).map trim).filter (· ≠ [])
  | none => []

def Env.applyPragma (env : Env) (body : Bytes) : Env :=
  (pragmaNames body).foldl (fun env name => env.defineBool name true) env

def Env.applyPragmas (env : Env) (pragmas : List Bytes) : Env := pragmas.foldl Env.applyPragma env

theorem applyPragmaBody_env (p : Preproc) (body : Bytes) :
    (p.applyPragmaBody body).env = p.env.applyPragma body := by
  unfold Env.applyPragma pragmaNames applyPragmaBody
  cases matches? (ascii "/VERSION:") (trim body) with
  | none => rfl
  | some names =>
    simp only [applyVersionNames, List.foldl_filter]
    congr 1
    funext env name
    by_cases hname : name = []
    · simp [hname]
    · simp [hname]

/-! ## Going on behind bytes that were dealt with -/

theorem copyBlockComment_drop (depth skip : Nat) (p : Preproc) (src : Bytes) :
    copyBlockComment depth skip p src = copyBlockComment depth 0 p (src.drop skip) := by
  induction src generalizing skip with
  | nil => rw [List.drop_nil, copyBlockComment, copyBlockComment]
  | cons c cs ih =>
    rcases skip with - | skip
    · rfl
    · rw [copyBlockComment, ih, List.drop_succ_cons]

theorem run_drop (skip : Nat) (p : Preproc) (src : Bytes) : run skip p src = run 0 p (src.drop skip) := by
  induction src generalizing skip with
  | nil => rw [List.drop_nil, run, run]
  | cons c cs ih =>
    rcases skip with - | skip
    · rfl
    · rw [run, ih, List.drop_succ_cons]

theorem run_taken (p : Preproc) (taken rest : Bytes) :
    run ((taken ++ rest).length - rest.length) p (taken ++ rest) = run 0 p rest := by
  rw [run_drop, drop_taken]

/-! ## Copies -/

/-- From `p` to `p'` the bytes `text` were written, with these pragmas in them. -/
structure Copies (p p' : Preproc) (text : Bytes) (pragmas : List Bytes) : Prop where
  writes : Writes p p' text
  env : p'.env = if p.active then p.env.applyPragmas pragmas else p.env

namespace Copies
variable {p p' p'' : Preproc} {text text' : Bytes} {pragmas pragmas' : List Bytes}

theorem refl (p : Preproc) : Copies p p [] [] := ⟨.refl p, by simp [Env.applyPragmas]⟩

theorem trans (h : Copies p p' text pragmas) (h' : Copies p' p'' text' pragmas') :
    Copies p p'' (text ++ text') (pragmas ++ pragmas') := by
  refine ⟨h.writes.trans h'.writes, ?_⟩
  rw [h'.env, h.env, h.writes.active, Env.applyPragmas, Env.applyPragmas, Env.applyPragmas, List.foldl_append]
  split_ifs <;> rfl

theorem emitByte (p : Preproc) (c : UInt8) : Copies p (p.emitByte c) [c] [] :=
  ⟨emitByte_writes p c, by simp [Preproc.emitByte, Env.applyPragmas]⟩

/-- At the end of a pragma. -/
theorem pragmaEnd (p : Preproc) (body : Bytes) :
    Copies p (((if p.active then p.applyPragmaBody body else p).emitByte star).emitByte greater)
      [star, greater] [body] := by
  have happly : Copies p (if p.active then p.applyPragmaBody body else p) [] [body] := by
    by_cases hp : p.active
    · rw [if_pos hp]
      refine ⟨applyPragmaBody_writes p body, ?_⟩
      rw [if_pos hp, applyPragmaBody_env]
      rfl
    · rw [if_neg hp]
      exact ⟨.refl p, by rw [if_neg hp]⟩
  exact (happly.trans (emitByte _ star)).trans (emitByte _ greater)

end Copies

theorem copyPragma_body {body src : Bytes} (h : pragmaBody src = some body) (acc : Bytes) (p : Preproc) :
    ∃ rest p', src = body ++ star :: greater :: rest ∧ copyPragma acc p src = .ok (p', rest) ∧
      Copies p p' (body ++ [star, greater]) [acc ++ body] := by
  induction src generalizing body acc p with
  | nil => cases h
  | cons c cs ih =>
    rw [pragmaBody] at h
    rw [copyPragma]
    split_ifs at h with hend
    · obtain ⟨rfl, hhead⟩ := id hend
      rcases cs with - | ⟨d, cs⟩
      · cases hhead
      cases hhead
      cases h
      rw [if_pos ⟨rfl, rfl⟩, List.append_nil]
      exact ⟨cs, _, rfl, rfl, .pragmaEnd p acc⟩
    · obtain ⟨body', hbody, rfl⟩ := Option.map_eq_some_iff.1 h
      obtain ⟨rest, p', rfl, hcopy, hw⟩ := ih hbody (acc ++ [c]) (p.emitByte c)
      rw [if_neg hend]
      refine ⟨rest, p', rfl, hcopy, ?_⟩
      rw [List.append_assoc, List.singleton_append] at hw
      exact (Copies.emitByte p c).trans hw

theorem pragmaBody_of_copyPragma {acc src rest : Bytes} {p p' : Preproc}
    (h : copyPragma acc p src = .ok (p', rest)) : ∃ body, pragmaBody src = some body := by
  induction src generalizing acc p with
  | nil => cases h
  | cons c cs ih =>
    rw [copyPragma] at h
    rw [pragmaBody]
    by_cases hend : c = star ∧ cs.head? = some greater
    · exact ⟨[], by rw [if_pos hend]⟩
    · rw [if_neg hend] at h ⊢
      obtain ⟨body, hbody⟩ := ih h
      exact ⟨c :: body, by rw [hbody, Option.map_some]⟩

theorem copyString_body {delimiter : UInt8} {body src : Bytes} (h : stringBody delimiter src = some body)
    (p : Preproc) :
    ∃ rest p', src = body ++ delimiter :: rest ∧ copyString delimiter p src = .ok (p', rest) ∧
      Copies p p' (body ++ [delimiter]) [] := by
  induction src generalizing body p with
  | nil => cases h
  | cons c cs ih =>
    rw [stringBody] at h
    rw [copyString]
    split_ifs at h ⊢ with hnl hend
    · subst hend
      cases h
      exact ⟨cs, _, rfl, rfl, .emitByte p c⟩
    · obtain ⟨body', hbody, rfl⟩ := Option.map_eq_some_iff.1 h
      obtain ⟨rest, p', rfl, hcopy, hw⟩ := ih hbody (p.emitByte c)
      exact ⟨rest, p', rfl, hcopy, (Copies.emitByte p c).trans hw⟩

theorem stringBody_of_copyString {delimiter : UInt8} {src rest : Bytes} {p p' : Preproc}
    (h : copyString delimiter p src = .ok (p', rest)) : ∃ body, stringBody delimiter src = some body := by
  induction src generalizing p with
  | nil => cases h
  | cons c cs ih =>
    rw [copyString] at h
    rw [stringBody]
    split_ifs at h ⊢ with hnl hend
    · exact ⟨[], rfl⟩
    · obtain ⟨body, hbody⟩ := ih h
      exact ⟨c :: body, by rw [hbody, Option.map_some]⟩

theorem copyLineComment_line {text : Bytes} (h : newline ∉ text) (p : Preproc) (rest : Bytes) :
    ∃ p', Copies p p' text [] ∧ copyLineComment p (text ++ rest) = copyLineComment p' rest := by
  induction text generalizing p with
  | nil => exact ⟨p, .refl p, rfl⟩
  | cons c text ih =>
    obtain ⟨hc, htext⟩ := List.ne_and_not_mem_of_not_mem_cons h
    obtain ⟨p', hw, hcopy⟩ := ih htext (p.emitByte c)
    refine ⟨p', (Copies.emitByte p c).trans hw, ?_⟩
    rw [List.cons_append, copyLineComment, if_neg (Ne.symm hc), hcopy]

/-! ## Comments -/

/-- The bytes of a comment before `rest`, from a place nested `depth` deep to its end, and the pragmas
that are taken in them. -/
inductive Comment (rest : Bytes) : Nat → Bytes → List Bytes → Prop
  | close : Comment rest 1 [star, rparen] []
  | outer {depth : Nat} {body : Bytes} {pragmas : List Bytes} (hdepth : 0 < depth) :
      Comment rest depth body pragmas → Comment rest (depth + 1) (star :: rparen :: body) pragmas
  | inner {depth : Nat} {body : Bytes} {pragmas : List Bytes} :
      Comment rest (depth + 1) body pragmas → Comment rest depth (lparen :: star :: body) pragmas
  | pragma {depth : Nat} {text body : Bytes} {pragmas : List Bytes}
      (hcloses : pragmaClosesWithinComment (text ++ star :: greater :: (body ++ rest)))
      (htext : pragmaBody (text ++ star :: greater :: (body ++ rest)) = some text) :
      Comment rest depth body pragmas →
        Comment rest depth (less :: star :: (text ++ star :: greater :: body)) (text :: pragmas)
  | byte {depth : Nat} {c : UInt8} {body : Bytes} {pragmas : List Bytes}
      (hopen : ¬ (c = lparen ∧ (body ++ rest).head? = some star))
      (hclose : ¬ (c = star ∧ (body ++ rest).head? = some rparen))
      (hpragma : ¬ (c = less ∧ (body ++ rest).head? = some star ∧
        pragmaClosesWithinComment (body ++ rest).tail)) :
      Comment rest depth body pragmas → Comment rest depth (c :: body) pragmas

theorem pragmaBody_of_closes {src : Bytes} (h : pragmaClosesWithinComment src) :
    ∃ body, pragmaBody src = some body := by
  induction src using pragmaClosesWithinComment.induct with
  | case1 c d cs hend =>
    obtain ⟨rfl, rfl⟩ := hend
    exact ⟨[], rfl⟩
  | case2 c d cs hend hclose =>
    rw [pragmaClosesWithinComment, if_neg hend, if_pos hclose] at h
    cases h
  | case3 c d cs hend hclose ih =>
    rw [pragmaClosesWithinComment, if_neg hend, if_neg hclose] at h
    obtain ⟨body, hbody⟩ := ih h
    refine ⟨c :: body, ?_⟩
    rw [pragmaBody, if_neg fun hc => hend ⟨hc.1, Option.some.inj hc.2⟩, hbody, Option.map_some]
  | case4 src hsrc =>
    rcases src with - | ⟨c, - | ⟨d, cs⟩⟩
    · cases h
    · cases h
    · exact absurd rfl (hsrc c d cs)

/-- A pragma in a comment, where the preprocessor takes it. -/
theorem copyBlockComment_pragma (depth : Nat) (p : Preproc) {cs body : Bytes}
    (hcloses : pragmaClosesWithinComment cs) (hbody : pragmaBody cs = some body) :
    ∃ rest p', cs = body ++ star :: greater :: rest ∧
      copyBlockComment depth 0 p (less :: star :: cs) = copyBlockComment depth 0 p' rest ∧
      Copies p p' (less :: star :: (body ++ [star, greater])) [body] := by
  obtain ⟨rest, p', hcs, hcopy, hw⟩ := copyPragma_body hbody [] ((p.emitByte less).emitByte star)
  refine ⟨rest, p', hcs, ?_, ((Copies.emitByte p less).trans (.emitByte _ star)).trans hw⟩
  have hdrop : (star :: cs).drop ((star :: cs).length - rest.length) = rest := by
    have hsplit : star :: cs = (star :: (body ++ [star, greater])) ++ rest := by simp [hcs]
    rw [hsplit, drop_taken]
  have hstep : copyBlockComment depth 0 p (less :: star :: cs) =
      copyBlockComment depth ((star :: cs).length - rest.length) p' (star :: cs) := by
    rw [copyBlockComment, if_neg fun h => absurd h.1 (by decide), if_pos ⟨rfl, rfl⟩, List.tail_cons,
      if_pos hcloses, hcopy]
    rfl
  rw [hstep, copyBlockComment_drop, hdrop]

theorem copyBlockComment_byte (depth : Nat) (p : Preproc) {c : UInt8} {cs : Bytes}
    (hopen : ¬ (c = lparen ∧ cs.head? = some star)) (hclose : ¬ (c = star ∧ cs.head? = some rparen))
    (hpragma : ¬ (c = less ∧ cs.head? = some star ∧ pragmaClosesWithinComment cs.tail)) :
    copyBlockComment depth 0 p (c :: cs) = copyBlockComment depth 0 (p.emitByte c) cs := by
  rw [copyBlockComment, if_neg hopen]
  split_ifs with hless hcloses
  · exact absurd ⟨hless.1, hless.2, hcloses⟩ hpragma
  · rfl
  · rfl

/-- The scanner copies a comment to its end. -/
theorem Comment.copyBlockComment {rest : Bytes} {depth : Nat} {body : Bytes} {pragmas : List Bytes}
    (h : Comment rest depth body pragmas) (p : Preproc) :
    ∃ p', copyBlockComment depth 0 p (body ++ rest) = .ok (p', rest) ∧ Copies p p' body pragmas := by
  induction h generalizing p with
  | close => exact ⟨_, rfl, (Copies.emitByte p star).trans (.emitByte _ rparen)⟩
  | @outer depth body pragmas hdepth hbody ih =>
    obtain ⟨p', hcopy, hw⟩ := ih ((p.emitByte star).emitByte rparen)
    refine ⟨p', ?_, ((Copies.emitByte p star).trans (.emitByte _ rparen)).trans hw⟩
    rw [List.cons_append, List.cons_append, Preproc.copyBlockComment, if_neg fun h => absurd h.1 (by decide),
      if_neg fun h => absurd h.1 (by decide), if_pos ⟨rfl, rfl⟩, if_neg (by omega), copyBlockComment_drop]
    exact hcopy
  | @inner depth body pragmas hbody ih =>
    obtain ⟨p', hcopy, hw⟩ := ih ((p.emitByte lparen).emitByte star)
    refine ⟨p', ?_, ((Copies.emitByte p lparen).trans (.emitByte _ star)).trans hw⟩
    rw [List.cons_append, List.cons_append, Preproc.copyBlockComment, if_pos ⟨rfl, rfl⟩,
      copyBlockComment_drop]
    exact hcopy
  | @pragma depth text body pragmas hcloses htext hbody ih =>
    obtain ⟨rest', p₁, hrest, hcopy₁, hw₁⟩ := copyBlockComment_pragma depth p hcloses htext
    obtain rfl : body ++ rest = rest' := (List.cons.inj (List.cons.inj (List.append_cancel_left hrest)).2).2
    obtain ⟨p', hcopy, hw⟩ := ih p₁
    refine ⟨p', ?_, ?_⟩
    · rw [← hcopy, ← hcopy₁]
      simp
    · have hboth := hw₁.trans hw
      simpa using hboth
  | @byte depth c body pragmas hopen hclose hpragma hbody ih =>
    obtain ⟨p', hcopy, hw⟩ := ih (p.emitByte c)
    refine ⟨p', ?_, (Copies.emitByte p c).trans hw⟩
    rw [List.cons_append, copyBlockComment_byte depth p hopen hclose hpragma, hcopy]

/-- What the scanner copies is a comment. -/
theorem comment_of_copyBlockComment {depth skip : Nat} {p p' : Preproc} {src rest : Bytes} (hdepth : 0 < depth)
    (h : copyBlockComment depth skip p src = .ok (p', rest)) :
    ∃ body pragmas, src.drop skip = body ++ rest ∧ Comment rest depth body pragmas := by
  induction hn : src.length using Nat.strong_induction_on generalizing depth skip p src with
  | _ n ih =>
    subst hn
    rw [copyBlockComment_drop] at h
    rcases hsrc : src.drop skip with - | ⟨c, cs⟩
    · rw [hsrc] at h
      simp [Preproc.copyBlockComment] at h
    rw [hsrc] at h
    have hshorter : cs.length < src.length := by
      have hlen := congrArg List.length hsrc
      rw [List.length_drop, List.length_cons] at hlen
      omega
    by_cases hopen : c = lparen ∧ cs.head? = some star
    · rw [Preproc.copyBlockComment, if_pos hopen] at h
      obtain ⟨body, pragmas, hbody, hcomment⟩ := ih _ hshorter (Nat.succ_pos _) h rfl
      obtain ⟨rfl, hhead⟩ := hopen
      obtain ⟨cs', rfl⟩ := List.head?_eq_some_iff.1 hhead
      rw [List.drop_succ_cons, List.drop_zero] at hbody
      subst hbody
      exact ⟨lparen :: star :: body, pragmas, rfl, .inner hcomment⟩
    by_cases hpragma : c = less ∧ cs.head? = some star ∧ pragmaClosesWithinComment cs.tail
    · obtain ⟨rfl, hhead, hcloses⟩ := hpragma
      obtain ⟨cs', rfl⟩ := List.head?_eq_some_iff.1 hhead
      rw [List.tail_cons] at hcloses
      obtain ⟨text, htext⟩ := pragmaBody_of_closes hcloses
      obtain ⟨rest', p₁, rfl, hcopy, -⟩ := copyBlockComment_pragma depth p hcloses htext
      rw [hcopy] at h
      have hshorter' : rest'.length < src.length := by
        simp only [List.length_cons, List.length_append] at hshorter
        omega
      obtain ⟨body, pragmas, hbody, hcomment⟩ := ih _ hshorter' hdepth h rfl
      rw [List.drop_zero] at hbody
      subst hbody
      refine ⟨less :: star :: (text ++ star :: greater :: body), text :: pragmas, ?_, .pragma hcloses htext hcomment⟩
      simp
    by_cases hclose : c = star ∧ cs.head? = some rparen
    · have hless : ¬ (c = less ∧ cs.head? = some star) := fun h => absurd (hclose.1.symm.trans h.1) (by decide)
      rw [Preproc.copyBlockComment, if_neg hopen, if_neg hless, if_pos hclose] at h
      obtain ⟨rfl, hhead⟩ := hclose
      obtain ⟨cs', rfl⟩ := List.head?_eq_some_iff.1 hhead
      by_cases hone : depth = 1
      · subst hone
        rw [if_pos rfl] at h
        cases h
        exact ⟨[star, rparen], [], rfl, .close⟩
      · rw [if_neg hone] at h
        obtain ⟨depth, rfl⟩ : ∃ n, depth = n + 1 := ⟨depth - 1, by omega⟩
        obtain ⟨body, pragmas, hbody, hcomment⟩ := ih _ hshorter (by omega) h rfl
        rw [List.drop_succ_cons, List.drop_zero] at hbody
        subst hbody
        exact ⟨star :: rparen :: body, pragmas, rfl, .outer (by omega) hcomment⟩
    · rw [copyBlockComment_byte depth p hopen hclose hpragma] at h
      obtain ⟨body, pragmas, hbody, hcomment⟩ := ih _ hshorter hdepth h rfl
      rw [List.drop_zero] at hbody
      subst hbody
      exact ⟨c :: body, pragmas, rfl, .byte hopen hclose hpragma hcomment⟩

/-! ## Pieces -/

/-- A piece of a text before `rest`, and the pragmas in it. -/
inductive Piece (rest : Bytes) : Bytes → List Bytes → Prop
  | comment {body : Bytes} {pragmas : List Bytes} (hbody : Comment rest 1 body pragmas) :
      Piece rest (lparen :: star :: body) pragmas
  | line {text : Bytes} (htext : newline ∉ text) (hrest : rest = [] ∨ rest.head? = some newline) :
      Piece rest (slash :: slash :: text) []
  | string {delimiter : UInt8} {body : Bytes} (hd : delimiter = doubleQuote ∨ delimiter = quote)
      (hbody : stringBody delimiter (body ++ delimiter :: rest) = some body) :
      Piece rest (delimiter :: (body ++ [delimiter])) []
  | pragma {body : Bytes} (hbody : pragmaBody (body ++ star :: greater :: rest) = some body) :
      Piece rest (less :: star :: (body ++ [star, greater])) [body]
  | byte {c : UInt8} (hc : Alone c rest.head?) : Piece rest [c] []

theorem run_alone (p : Preproc) {c : UInt8} {rest : Bytes} (h : Alone c rest.head?) :
    run 0 p (c :: rest) = run 0 (p.emitByte c) rest := by
  rw [run, if_neg h.comment, if_neg h.line, if_neg h.string, if_neg h.pragma, if_neg h.directive]

theorem not_delimiter {delimiter c : UInt8} (hd : delimiter = doubleQuote ∨ delimiter = quote)
    (hc : c ≠ doubleQuote ∧ c ≠ quote) : delimiter ≠ c := by
  rcases hd with rfl | rfl
  · exact hc.1.symm
  · exact hc.2.symm

namespace Piece
variable {rest text : Bytes} {pragmas : List Bytes}

theorem ne_nil (h : Piece rest text pragmas) : text ≠ [] := by
  cases h <;> exact List.cons_ne_nil _ _

/-- The pass copies a piece. -/
theorem run (h : Piece rest text pragmas) (p : Preproc) :
    ∃ p', Copies p p' text pragmas ∧ run 0 p (text ++ rest) = run 0 p' rest := by
  cases h with
  | @comment body pragmas hbody =>
    obtain ⟨p', hcopy, hw⟩ := hbody.copyBlockComment ((p.emitByte lparen).emitByte star)
    refine ⟨p', ((Copies.emitByte p lparen).trans (.emitByte _ star)).trans hw, ?_⟩
    have hstep : Preproc.run 0 p (lparen :: star :: (body ++ rest)) =
        Preproc.run ((star :: (body ++ rest)).length - rest.length) p' (star :: (body ++ rest)) := by
      rw [Preproc.run, if_pos ⟨rfl, rfl⟩, List.tail_cons, hcopy]
      rfl
    rw [List.cons_append, List.cons_append, hstep, ← List.cons_append, run_taken]
  | @line text htext hrest =>
    have hnl : newline ∉ slash :: slash :: text :=
      List.not_mem_cons_of_ne_of_not_mem (by decide) (List.not_mem_cons_of_ne_of_not_mem (by decide) htext)
    obtain ⟨p', hw, hcopy⟩ := copyLineComment_line hnl p rest
    have hstep (p₁ : Preproc) (rest₁ : Bytes) (h : copyLineComment p' rest = (p₁, rest₁)) :
        Preproc.run 0 p (slash :: slash :: text ++ rest) =
          Preproc.run ((slash :: (text ++ rest)).length - rest₁.length) p₁ (slash :: (text ++ rest)) := by
      rw [List.cons_append, List.cons_append] at hcopy ⊢
      rw [Preproc.run, if_neg fun h => absurd h.1 (by decide), if_pos ⟨rfl, rfl⟩, hcopy, h]
    refine ⟨p', hw, ?_⟩
    rcases hrest with rfl | hhead
    · have h := run_taken p' (slash :: text) []
      rw [hstep p' [] rfl]
      exact h
    · -- the scanner takes the newline too
      obtain ⟨rest₁, rfl⟩ := List.head?_eq_some_iff.1 hhead
      have hcopied : copyLineComment p' (newline :: rest₁) = (p'.emitByte newline, rest₁) := by
        rw [copyLineComment, if_pos rfl]
      have hsplit : slash :: (text ++ newline :: rest₁) = slash :: (text ++ [newline]) ++ rest₁ := by simp
      rw [hstep _ _ hcopied, hsplit, run_taken, run_alone p' (.of_isPlain (by decide) _)]
  | @string delimiter body hd hbody =>
    obtain ⟨rest', p', hrest, hcopy, hw⟩ := copyString_body hbody (p.emitByte delimiter)
    obtain rfl : rest = rest' := (List.cons.inj (List.append_cancel_left hrest)).2
    refine ⟨p', (Copies.emitByte p delimiter).trans hw, ?_⟩
    have hsplit : body ++ delimiter :: rest = (body ++ [delimiter]) ++ rest := by simp
    have hstep : Preproc.run 0 p (delimiter :: (body ++ delimiter :: rest)) =
        Preproc.run ((body ++ delimiter :: rest).length - rest.length) p' (body ++ delimiter :: rest) := by
      rw [Preproc.run, if_neg fun h => not_delimiter hd (by decide) h.1,
        if_neg fun h => not_delimiter hd (by decide) h.1, if_pos hd, hcopy]
      rfl
    rw [List.cons_append, ← hsplit, hstep, hsplit, run_taken]
  | @pragma body hbody =>
    obtain ⟨rest', p', hrest, hcopy, hw⟩ := copyPragma_body hbody [] ((p.emitByte less).emitByte star)
    obtain rfl : rest = rest' := (List.cons.inj (List.cons.inj (List.append_cancel_left hrest)).2).2
    refine ⟨p', ((Copies.emitByte p less).trans (.emitByte _ star)).trans hw, ?_⟩
    have hsplit : star :: (body ++ star :: greater :: rest) = (star :: (body ++ [star, greater])) ++ rest := by
      simp
    have hstep : Preproc.run 0 p (less :: star :: (body ++ star :: greater :: rest)) =
        Preproc.run ((star :: (body ++ star :: greater :: rest)).length - rest.length) p'
          (star :: (body ++ star :: greater :: rest)) := by
      rw [Preproc.run, if_neg fun h => absurd h.1 (by decide), if_neg fun h => absurd h.1 (by decide),
        if_neg (by decide), if_pos ⟨rfl, rfl⟩, List.tail_cons, hcopy]
      rfl
    rw [List.cons_append, ← hsplit, hstep, hsplit, run_taken]
  | @byte c hc => exact ⟨p.emitByte c, .emitByte p c, run_alone p hc⟩

end Piece

/-- What the pass meets is a directive or a piece. -/
theorem exists_piece {p p' : Preproc} {c : UInt8} {cs : Bytes} (hc : c ≠ percent)
    (h : run 0 p (c :: cs) = .ok p') : ∃ text pragmas rest, c :: cs = text ++ rest ∧ Piece rest text pragmas := by
  rw [run] at h
  split_ifs at h with hcomment hline hstring hpragma
  · obtain ⟨rfl, hhead⟩ := hcomment
    obtain ⟨cs', rfl⟩ := List.head?_eq_some_iff.1 hhead
    obtain ⟨⟨p₁, rest⟩, hcopy, -⟩ := bind_eq_ok h
    obtain ⟨body, pragmas, hbody, hcomment⟩ := comment_of_copyBlockComment Nat.one_pos hcopy
    rw [List.drop_zero, List.tail_cons] at hbody
    subst hbody
    exact ⟨_, pragmas, rest, rfl, .comment hcomment⟩
  · obtain ⟨rfl, hhead⟩ := hline
    obtain ⟨cs', rfl⟩ := List.head?_eq_some_iff.1 hhead
    obtain ⟨text, rest, rfl, -, htext, hrest⟩ := takeWhile_line cs'
    exact ⟨_, [], rest, rfl, .line htext hrest⟩
  · obtain ⟨⟨p₁, rest⟩, hcopy, -⟩ := bind_eq_ok h
    obtain ⟨body, hbody⟩ := stringBody_of_copyString hcopy
    obtain ⟨rest, rfl⟩ := stringBody_eq hbody
    exact ⟨_, [], rest, by simp, .string hstring hbody⟩
  · obtain ⟨rfl, hhead⟩ := hpragma
    obtain ⟨cs', rfl⟩ := List.head?_eq_some_iff.1 hhead
    obtain ⟨⟨p₁, rest⟩, hcopy, -⟩ := bind_eq_ok h
    obtain ⟨body, hbody⟩ := pragmaBody_of_copyPragma hcopy
    rw [List.tail_cons] at hbody
    obtain ⟨rest, rfl⟩ := pragmaBody_eq hbody
    exact ⟨_, [body], rest, by simp, .pragma hbody⟩
  · exact ⟨[c], [], cs, rfl, .byte ⟨hcomment, hline, hpragma, hc, hstring⟩⟩

end NewM2.Lexer
