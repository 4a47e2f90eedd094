import Mathlib
import NewM2.Lexer.Pieces

/-!
# The comments of the preprocessor and of the lexer

Two scanners look for the end of a block comment: `copyBlockComment` takes a pragma in it as one piece
where the pragma ends before the comment does, `skipBlockComment` knows no pragmas there. They go
different ways where such a pragma has a comment bracket in it, which only the lexer counts (`Harmless`
forbids it); everywhere else they are at the same place with the same nesting. Between comments they
take the same strings, pragmas and lines, so that a text of which the lexer makes tokens passes the
preprocessor as it is.
-/

namespace NewM2.Lexer
open Utf8 Preproc

/-! ## Going on behind bytes that were dealt with -/

theorem skipBlockComment_drop (depth skip : Nat) (src : Bytes) :
    skipBlockComment depth skip src = skipBlockComment depth 0 (src.drop skip) := by
  induction src generalizing skip with
  | nil => rw [List.drop_nil, skipBlockComment, skipBlockComment]
  | cons c cs ih =>
    rcases skip with - | skip
    · rfl
    · rw [skipBlockComment, ih, List.drop_succ_cons]

/-! ## Comments with harmless pragmas -/

/-- No `(*` and no `*)`. -/
def BracketFree (text : Bytes) : Prop := ¬ [lparen, star] <:+: text ∧ ¬ [star, rparen] <:+: text

instance (text : Bytes) : Decidable (BracketFree text) :=
  inferInstanceAs (Decidable (_ ∧ _))

/-- Behind the `(*` of a comment, nested `depth` deep, of which the next `skip` bytes were looked at: no
pragma that the preprocessor takes has a bracket between its `<` and its `>`. -/
def Harmless : Nat → Nat → Bytes → Prop
  | _, _, [] => True
  | depth, skip + 1, _ :: cs => Harmless depth skip cs
  | depth, 0, c :: cs =>
    if c = lparen ∧ cs.head? = some star then Harmless (depth + 1) 1 cs
    else if c = less ∧ cs.head? = some star ∧ pragmaClosesWithinComment cs.tail then
      (∀ body ∈ pragmaBody cs.tail, BracketFree (star :: (body ++ [star]))) ∧ Harmless depth 0 cs
    else if c = star ∧ cs.head? = some rparen then depth = 1 ∨ Harmless (depth - 1) 1 cs
    else Harmless depth 0 cs

instance decidableHarmless : (depth skip : Nat) → (src : Bytes) → Decidable (Harmless depth skip src)
  | _, _, [] => isTrue trivial
  | depth, skip + 1, _ :: cs => decidableHarmless depth skip cs
  | depth, 0, c :: cs =>
    have := decidableHarmless (depth + 1) 1 cs
    have := decidableHarmless depth 0 cs
    have := decidableHarmless (depth - 1) 1 cs
    inferInstanceAs <| Decidable <|
      if c = lparen ∧ cs.head? = some star then Harmless (depth + 1) 1 cs
      else if c = less ∧ cs.head? = some star ∧ pragmaClosesWithinComment cs.tail then
        (∀ body ∈ pragmaBody cs.tail, BracketFree (star :: (body ++ [star]))) ∧ Harmless depth 0 cs
      else if c = star ∧ cs.head? = some rparen then depth = 1 ∨ Harmless (depth - 1) 1 cs
      else Harmless depth 0 cs

theorem harmless_drop (depth skip : Nat) (src : Bytes) :
    Harmless depth skip src = Harmless depth 0 (src.drop skip) := by
  induction src generalizing skip with
  | nil => rw [List.drop_nil, Harmless, Harmless]
  | cons c cs ih =>
    rcases skip with - | skip
    · rfl
    · rw [Harmless, ih, List.drop_succ_cons]

namespace BracketFree
variable {c : UInt8} {text rest : Bytes}

theorem tail (h : BracketFree (c :: text)) : BracketFree text :=
  ⟨fun hi => h.1 (List.infix_cons hi), fun hi => h.2 (List.infix_cons hi)⟩

/-- No bracket begins before the `>`. -/
theorem not_bracket {b d : UInt8} (h : ¬ [b, d] <:+: c :: text) (hd : d ≠ greater) :
    ¬ (c = b ∧ (text ++ greater :: rest).head? = some d) := by
  rintro ⟨rfl, hhead⟩
  rcases text with - | ⟨e, text⟩
  · exact hd (Option.some.inj hhead).symm
  · obtain rfl : e = d := Option.some.inj hhead
    exact h (List.IsPrefix.isInfix ⟨text, rfl⟩)

theorem skipBlockComment (h : BracketFree text) (depth : Nat) :
    skipBlockComment depth 0 (text ++ greater :: rest) = skipBlockComment depth 0 rest := by
  induction text with
  | nil =>
    rw [List.nil_append, Lexer.skipBlockComment, if_neg fun h => absurd h.1 (by decide),
      if_neg fun h => absurd h.1 (by decide), if_neg fun h => absurd h.1 (by decide)]
  | cons c text ih =>
    rw [List.cons_append, Lexer.skipBlockComment, if_neg (not_bracket h.1 (by decide)),
      if_neg (not_bracket h.2 (by decide)), ite_self, ih h.tail]

theorem harmless (h : BracketFree text) {depth : Nat} (hh : Harmless depth 0 (text ++ greater :: rest)) :
    Harmless depth 0 rest := by
  induction text with
  | nil =>
    rwa [List.nil_append, Harmless, if_neg fun h => absurd h.1 (by decide),
      if_neg fun h => absurd h.1 (by decide), if_neg fun h => absurd h.1 (by decide)] at hh
  | cons c text ih =>
    rw [List.cons_append, Harmless, if_neg (not_bracket h.1 (by decide))] at hh
    split_ifs at hh with hpragma hclose
    · exact ih h.tail hh.2
    · exact absurd hclose (not_bracket h.2 (by decide))
    · exact ih h.tail hh

end BracketFree

/-- The scanners stop at the same place, or both miss the end of the comment. -/
def Agree (depth : Nat) (p : Preproc) (src : Bytes) : Prop :=
  (∃ p' rest, copyBlockComment depth 0 p src = .ok (p', rest) ∧ skipBlockComment depth 0 src = some rest) ∨
    copyBlockComment depth 0 p src = .error "unterminated block comment" ∧
      skipBlockComment depth 0 src = none

theorem agree_of_harmless {depth : Nat} {src : Bytes} (h : Harmless depth 0 src) (p : Preproc) :
    Agree depth p src := by
  induction hn : src.length using Nat.strong_induction_on generalizing depth src p with
  | _ n ih =>
    subst hn
    rcases src with - | ⟨c, cs⟩
    · exact .inr ⟨rfl, rfl⟩
    have hshorter (skip : Nat) : (cs.drop skip).length < (c :: cs).length := by
      rw [List.length_drop, List.length_cons]
      omega
    rw [Harmless] at h
    by_cases hopen : c = lparen ∧ cs.head? = some star
    · rw [if_pos hopen, harmless_drop] at h
      rw [Agree, copyBlockComment, skipBlockComment, if_pos hopen, if_pos hopen, copyBlockComment_drop,
        skipBlockComment_drop]
      exact ih _ (hshorter 1) h _ rfl
    rw [if_neg hopen] at h
    by_cases htaken : c = less ∧ cs.head? = some star ∧ pragmaClosesWithinComment cs.tail
    · rw [if_pos htaken] at h
      obtain ⟨rfl, hhead, hcloses⟩ := htaken
      obtain ⟨hfree, hrest⟩ := h
      rcases cs with - | ⟨d, cs⟩
      · cases hhead
      cases hhead
      rw [List.tail_cons] at hcloses hfree
      obtain ⟨body, hbody⟩ := pragmaBody_of_closes hcloses
      have hfree := hfree body hbody
      obtain ⟨rest, p', hcs, hcopy, -⟩ := copyBlockComment_pragma depth p hcloses hbody
      have hcs' : star :: cs = star :: (body ++ [star]) ++ greater :: rest := by
        rw [hcs]
        simp
      have hskip : skipBlockComment depth 0 (less :: star :: cs) = skipBlockComment depth 0 rest := by
        rw [skipBlockComment, if_neg hopen, if_neg fun h => absurd h.1 (by decide),
          if_neg fun h => absurd h.1 (by decide), hcs', hfree.skipBlockComment]
      rw [hcs'] at hrest
      rw [Agree, hcopy, hskip]
      refine ih _ ?_ (hfree.harmless hrest) p' rfl
      rw [hcs]
      simp only [List.length_cons, List.length_append]
      omega
    rw [if_neg htaken] at h
    by_cases hclose : c = star ∧ cs.head? = some rparen
    · have hpragma : ¬ (c = less ∧ cs.head? = some star) := fun h => absurd (hclose.1.symm.trans h.1) (by decide)
      have hgreater : ¬ (c = star ∧ cs.head? = some greater) :=
        fun h => absurd (hclose.2.symm.trans h.2) (by decide)
      rw [if_pos hclose] at h
      rw [Agree, copyBlockComment, skipBlockComment, if_neg hopen, if_neg hopen, if_neg hpragma,
        if_neg hgreater, if_pos hclose, if_pos hclose]
      by_cases hone : depth = 1
      · rw [if_pos hone, if_pos hone]
        exact .inl ⟨_, _, rfl, rfl⟩
      · rw [if_neg hone, if_neg hone, copyBlockComment_drop, skipBlockComment_drop]
        have h := h.resolve_left hone
        rw [harmless_drop] at h
        exact ih _ (hshorter 1) h _ rfl
    · rw [if_neg hclose] at h
      have hcopy : copyBlockComment depth 0 p (c :: cs) = copyBlockComment depth 0 (p.emitByte c) cs := by
        rw [copyBlockComment, if_neg hopen]
        split_ifs with hpragma hcloses
        · exact absurd ⟨hpragma.1, hpragma.2, hcloses⟩ htaken
        · rfl
        · rfl
      have hskip : skipBlockComment depth 0 (c :: cs) = skipBlockComment depth 0 cs := by
        rw [skipBlockComment, if_neg hopen, if_neg hclose, ite_self]
      rw [Agree, hcopy, hskip]
      exact ih _ (hshorter 0) h _ rfl

/-! ## Between comments -/

/-- What stands behind the `(*` of each comment of a text without directives; the next `skip` bytes were
looked at. -/
def comments : Nat → Bytes → List Bytes
  | _, [] => []
  | skip + 1, _ :: cs => comments skip cs
  | 0, c :: cs =>
    if c = lparen ∧ cs.head? = some star then
      cs.tail :: comments (cs.length - ((skipBlockComment 1 0 cs.tail).getD []).length) cs
    else if c = slash ∧ cs.head? = some slash then comments (cs.takeWhile (· != newline)).length cs
    else if c = doubleQuote ∨ c = quote then
      match stringBody c cs with
      | some body => comments (body.length + 1) cs
      | none => []
    else if c = less ∧ cs.head? = some star then
      match pragmaBody cs.tail with
      | some body => comments (body.length + 3) cs
      | none => []
    else comments 0 cs

theorem comments_drop (skip : Nat) (src : Bytes) : comments skip src = comments 0 (src.drop skip) := by
  induction src generalizing skip with
  | nil => rw [List.drop_nil, comments, comments]
  | cons c cs ih =>
    rcases skip with - | skip
    · rfl
    · rw [comments, ih, List.drop_succ_cons]

theorem comments_taken (taken rest : Bytes) : comments taken.length (taken ++ rest) = comments 0 rest := by
  rw [comments_drop, List.drop_left]

/-- The preprocessor copies `text` before `rest`, outside branches. -/
structure Passes (text rest : Bytes) : Prop where
  run : ∀ p : Preproc, p.stack = [] → ∃ p', Writes p p' text ∧ run 0 p (text ++ rest) = run 0 p' rest
  comments : comments 0 rest ⊆ comments 0 (text ++ rest)

/-- What stands in a comment ends it. -/
theorem InComment.skipBlockComment {depth : Nat} {body : Bytes} (h : InComment depth body) (rest : Bytes) :
    skipBlockComment depth 0 (body ++ rest) = some rest := by
  induction h with
  | close => rfl
  | @outer depth body hdepth hbody ih =>
    rw [List.cons_append, List.cons_append, Lexer.skipBlockComment, if_neg fun h => absurd h.1 (by decide),
      if_neg fun h => absurd (Option.some.inj h.2) (by decide), if_pos ⟨rfl, rfl⟩, if_neg (by omega),
      skipBlockComment_drop]
    exact ih
  | @inner depth body hbody ih =>
    rw [List.cons_append, List.cons_append, Lexer.skipBlockComment, if_pos ⟨rfl, rfl⟩, skipBlockComment_drop]
    exact ih
  | @byte depth c body hopen hclose hbody ih =>
    rw [← hbody.head? rest] at hopen hclose
    rw [List.cons_append, Lexer.skipBlockComment, if_neg hopen, if_neg hclose, ite_self]
    exact ih

namespace Passes
variable {rest text : Bytes}

theorem nil (rest : Bytes) : Passes [] rest := ⟨fun p _ => ⟨p, .refl p, rfl⟩, List.Subset.refl _⟩

theorem append {text' : Bytes} (h : Passes text (text' ++ rest)) (h' : Passes text' rest) :
    Passes (text ++ text') rest := by
  refine ⟨fun p hp => ?_, ?_⟩
  · obtain ⟨p₁, hw, hrun⟩ := h.run p hp
    obtain ⟨p₂, hw', hrun'⟩ := h'.run p₁ (hw.stack.trans hp)
    refine ⟨p₂, hw.trans hw', ?_⟩
    rw [List.append_assoc, hrun, hrun']
  · rw [List.append_assoc]
    exact List.Subset.trans h'.comments h.comments

/-- The pass copies a piece; what is left is to find the comments behind it. -/
theorem of_piece {pragmas : List Bytes} (h : Piece rest text pragmas)
    (hcomments : Lexer.comments 0 rest ⊆ Lexer.comments 0 (text ++ rest)) : Passes text rest := by
  refine ⟨fun p _ => ?_, hcomments⟩
  obtain ⟨p', hw, hrun⟩ := h.run p
  exact ⟨p', hw.writes, hrun⟩

theorem alone {c : UInt8} (h : Alone c rest.head?) : Passes [c] rest := by
  refine .of_piece (.byte h) ?_
  rw [List.singleton_append, Lexer.comments, if_neg h.comment, if_neg h.line, if_neg h.string,
    if_neg h.pragma]
  exact List.Subset.refl _

theorem plain (h : ∀ c ∈ text, isPlain c) : Passes text rest := by
  induction text with
  | nil => exact .nil rest
  | cons c text ih =>
    obtain ⟨hc, htext⟩ := List.forall_mem_cons.1 h
    have hfirst : Passes [c] (text ++ rest) := .alone (.of_isPlain hc _)
    exact hfirst.append (ih htext)

theorem string {delimiter : UInt8} {body : Bytes} (hd : delimiter = doubleQuote ∨ delimiter = quote)
    (hbody : stringBody delimiter (body ++ delimiter :: rest) = some body) :
    Passes (delimiter :: (body ++ [delimiter])) rest := by
  refine .of_piece (.string hd hbody) ?_
  have hsplit : body ++ delimiter :: rest = (body ++ [delimiter]) ++ rest := by simp
  have hlen : body.length + 1 = (body ++ [delimiter]).length := by simp
  rw [List.cons_append, ← hsplit, Lexer.comments, if_neg fun h => not_delimiter hd (by decide) h.1,
    if_neg fun h => not_delimiter hd (by decide) h.1, if_pos hd, hbody]
  simp only
  rw [hlen, hsplit, comments_taken]
  exact List.Subset.refl _

theorem pragma {body : Bytes} (hbody : pragmaBody (body ++ star :: greater :: rest) = some body) :
    Passes (less :: star :: (body ++ [star, greater])) rest := by
  refine .of_piece (.pragma hbody) ?_
  have hsplit : star :: (body ++ star :: greater :: rest) = (star :: (body ++ [star, greater])) ++ rest := by
    simp
  have hlen : body.length + 3 = (star :: (body ++ [star, greater])).length := by simp
  rw [List.cons_append, ← hsplit, Lexer.comments, if_neg fun h => absurd h.1 (by decide),
    if_neg fun h => absurd h.1 (by decide), if_neg (by decide), if_pos ⟨rfl, rfl⟩, List.tail_cons, hbody]
  simp only
  rw [hlen, hsplit, comments_taken]
  exact List.Subset.refl _

theorem line (htext : newline ∉ text) (hrest : rest = [] ∨ rest.head? = some newline) :
    Passes (slash :: slash :: text) rest := by
  refine .of_piece (.line htext hrest) ?_
  have htake : (slash :: (text ++ rest)).takeWhile (· != newline) = slash :: text := by
    have hpos : ∀ c ∈ slash :: text, (c != newline) = true := fun c hc =>
      bne_iff_ne.2 (ne_of_mem_of_not_mem hc (List.not_mem_cons_of_ne_of_not_mem (by decide) htext))
    rw [← List.cons_append, List.takeWhile_append_of_pos hpos]
    rcases hrest with rfl | hhead
    · rw [List.takeWhile_nil, List.append_nil]
    · obtain ⟨rest₁, rfl⟩ := List.head?_eq_some_iff.1 hhead
      rw [List.takeWhile_cons_of_neg (by decide), List.append_nil]
  rw [List.cons_append, List.cons_append, Lexer.comments, if_neg fun h => absurd h.1 (by decide),
    if_pos ⟨rfl, rfl⟩, htake, ← List.cons_append, comments_taken]
  exact List.Subset.refl _

theorem comment {body : Bytes} (hbody : InComment 1 body) (h : Harmless 1 0 (body ++ rest)) :
    Passes (lparen :: star :: body) rest := by
  have hskip := hbody.skipBlockComment rest
  refine ⟨fun p _ => ?_, ?_⟩
  · rcases agree_of_harmless h ((p.emitByte lparen).emitByte star) with ⟨p', rest', hcopy, hskip'⟩ | ⟨-, hnone⟩
    · obtain rfl := Option.some.inj (hskip.symm.trans hskip')
      obtain ⟨taken, htaken, hw⟩ := copyBlockComment_writes hcopy
      obtain rfl : body = taken := List.append_cancel_right htaken
      refine ⟨p', ((emitByte_writes p lparen).trans (emitByte_writes _ star)).trans hw, ?_⟩
      have hstep : Preproc.run 0 p (lparen :: star :: (body ++ rest)) =
          Preproc.run ((star :: (body ++ rest)).length - rest.length) p' (star :: (body ++ rest)) := by
        rw [Preproc.run, if_pos ⟨rfl, rfl⟩, List.tail_cons, hcopy]
        rfl
      rw [List.cons_append, List.cons_append, hstep, ← List.cons_append, run_taken]
    · cases hskip.symm.trans hnone
  · have hlen : (star :: (body ++ rest)).length - rest.length = (star :: body).length := by
      simp only [List.length_cons, List.length_append]
      omega
    rw [List.cons_append, List.cons_append, Lexer.comments, if_pos ⟨rfl, rfl⟩, List.tail_cons, hskip,
      Option.getD_some, hlen, ← List.cons_append, comments_taken]
    exact List.subset_cons_self _ _

end Passes

theorem isPlain_of_isSpace : ∀ c : UInt8, isSpace c → isPlain c := by decide +kernel

theorem Trivia.passes {gap rest : Bytes} (h : Trivia rest gap)
    (hharmless : ∀ b ∈ comments 0 (gap ++ rest), Harmless 1 0 b) : Passes gap rest := by
  induction h with
  | nil => exact .nil rest
  | @space c gap hc hgap ih =>
    have hfirst : Passes [c] (gap ++ rest) := .alone (.of_isPlain (isPlain_of_isSpace c hc) _)
    exact hfirst.append (ih fun b hb => hharmless b (hfirst.comments hb))
  | @comment body gap hbody hgap ih =>
    have hfirst : Passes (lparen :: star :: body) (gap ++ rest) := by
      refine .comment hbody (hharmless _ ?_)
      rw [List.cons_append, List.cons_append, List.append_assoc, comments, if_pos ⟨rfl, rfl⟩]
      exact List.mem_cons_self
    rw [← List.cons_append, ← List.cons_append] at hharmless ⊢
    rw [List.append_assoc] at hharmless
    exact hfirst.append (ih fun b hb => hharmless b (hfirst.comments hb))
  | @line text gap htext hend hgap ih =>
    have hfirst : Passes (slash :: slash :: text) (gap ++ rest) := .line htext hend
    rw [← List.cons_append, ← List.cons_append] at hharmless ⊢
    rw [List.append_assoc] at hharmless
    exact hfirst.append (ih fun b hb => hharmless b (hfirst.comments hb))

theorem TokenText.passes {text rest : Bytes} (h : TokenText rest text) : Passes text rest := by
  cases h with
  | pragma hbody => exact .pragma hbody
  | @string delimiter body suffix hd hbody hsuffix =>
    have hfirst : Passes (delimiter :: (body ++ [delimiter])) (suffix ++ rest) := .string hd hbody
    have happend := hfirst.append (.plain hsuffix)
    simpa using happend
  | @other c more hc halone hmore =>
    have hfirst : Passes [c] (more ++ rest) := .alone halone
    exact hfirst.append (.plain hmore)

/-- A text of which the lexer makes tokens passes. -/
theorem Covered.passes {before src : Bytes} {toks : List Token} (h : Covered before src toks)
    (hharmless : ∀ b ∈ comments 0 src, Harmless 1 0 b) : Passes src [] := by
  induction h with
  | eof hgap =>
    exact hgap.passes (by rwa [List.append_nil])
  | @token before gap text rest kind toks hgap hkind htext _ ih =>
    have hfirst := hgap.passes hharmless
    have hsecond := htext.passes
    have hrest := ih fun b hb => hharmless b (hfirst.comments (hsecond.comments hb))
    have hboth : Passes (text ++ rest) [] := .append (by rwa [List.append_nil]) hrest
    exact .append (by rwa [List.append_nil]) hboth

/-- Where the pragmas in comments are harmless, the scanners agree about a comment, and a text of which
the lexer makes tokens comes out of the pass as it is. -/
theorem comments_agree {cs src : Bytes} {toks : List Token} (hcs : Harmless 1 0 cs)
    (hsrc : ∀ b ∈ comments 0 src, Harmless 1 0 b) (htoks : tokenize src = .ok toks) (p : Preproc) (env : Env) :
    Agree 1 p cs ∧ ∃ p', run 0 ⟨[], env, []⟩ src = .ok p' ∧ p'.out = src := by
  have htokenized : Tokenized [] src (tokenize src) := tokens_tokenized [] src (Nat.lt_succ_self _)
  rw [htoks] at htokenized
  obtain ⟨p', hw, hrun⟩ := (htokenized.passes hsrc).run ⟨[], env, []⟩ rfl
  refine ⟨agree_of_harmless hcs p, p', ?_, ?_⟩
  · have hstack : p'.stack = [] := hw.stack
    rw [List.append_nil] at hrun
    rw [hrun, run, if_pos hstack]
  · have hall : mask ⟨[], env, []⟩ src = src := by simp [mask, active]
    rw [hw.out, hall, List.nil_append]

theorem comments_agree_nested :
    Agree 1 ⟨[], .empty, []⟩ (ascii "a <*/VERSION:X*> (* b *) *)") ∧
      ∃ p', run 0 ⟨[], .empty, []⟩ (ascii "x(*a <*/VERSION:X*> (* b *) *);") = .ok p' ∧
        p'.out = ascii "x(*a <*/VERSION:X*> (* b *) *);" := by
  have hcs : Harmless 1 0 (ascii "a <*/VERSION:X*> (* b *) *)") := by decide +kernel
  have hsrc : ∀ b ∈ comments 0 (ascii "x(*a <*/VERSION:X*> (* b *) *);"), Harmless 1 0 b := by
    decide +kernel
  have hok : (tokenize (ascii "x(*a <*/VERSION:X*> (* b *) *);")).toOption.isSome := by decide +kernel
  obtain ⟨toks, htoks⟩ : ∃ toks, tokenize (ascii "x(*a <*/VERSION:X*> (* b *) *);") = .ok toks := by
    cases h : tokenize (ascii "x(*a <*/VERSION:X*> (* b *) *);") with
    | error e => cases h ▸ hok
    | ok toks => exact ⟨toks, rfl⟩
  exact comments_agree hcs hsrc htoks ⟨[], .empty, []⟩ .empty

/-- The lexer ends the comment in the middle of a pragma, which the preprocessor takes as a whole. -/
theorem comments_differ :
    skipBlockComment 1 0 (ascii "<*) x *>") = some (ascii " x *>") ∧
      (copyBlockComment 1 0 ⟨ascii "(*", .empty, []⟩ (ascii "<*) x *>")).toOption.isNone ∧
      (tokenize (ascii "(*<*) x *>")).toOption.isSome ∧
      (run 0 ⟨[], .empty, []⟩ (ascii "(*<*) x *>")).toOption.isNone := by
  decide +kernel

/-- Brackets in a pragma can make up for each other: the two end alike here, with one comment nested for the
lexer and none for the preprocessor. -/
example : skipBlockComment 1 0 (ascii " (*<*) (* *> *) *) x") = some (ascii " x") ∧
    ((copyBlockComment 1 0 ⟨ascii "(*", .empty, []⟩ (ascii " (*<*) (* *> *) *) x")).toOption.map
      (·.2)) = some (ascii " x") := by
  decide +kernel

end NewM2.Lexer
