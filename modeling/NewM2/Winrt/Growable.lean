import Mathlib
import NewM2.Winrt.StrBuf
import NewM2.Winrt.Vector

/-!
# Growable buffers

The strings of `StrBuf` and the vectors of `Vector` are sequences, as long as these fit into the view of their
blocks and no capacity is requested whose block would be too large. -/

namespace NewM2.Winrt.Growable
open Blocks

/-- The doubling comes to an end, at a capacity that is large enough. -/
theorem growTo_ends {j need : Nat} (hj : j ≤ 63) (hneed : need ≤ 2 ^ 63) :
    ∃ nc, growTo Vector.rounds (2 ^ j) need = some nc ∧ need ≤ nc := by
  obtain ⟨j', hgrow, hle, -⟩ := @growTo_pow Vector.rounds j 63 need hj le_rfl hneed (by rw [Vector.rounds]; omega)
  exact ⟨_, hgrow, hle⟩

theorem growable_refines (M : Memory Code) (M' : Memory Vector.Cell) :
    (∀ ops ts os, StrBuf.specRun StrBuf.maxIdx [] ops = some (ts, os) →
        ∃ w, StrBuf.run M ops StrBuf.World.start = .ok (os, w) ∧ StrBuf.Holds ts w) ∧
      (∀ ops ls os, Vector.specRun (Vector.maxIdx + 1) Vector.maxCap [] ops = some (ls, os) →
        ∃ w, Vector.run M' ops Vector.World.start = .ok (os, w) ∧ Vector.Holds ls w) ∧
      ∀ j need, j ≤ 63 → need ≤ 2 ^ 63 → ∃ nc, growTo Vector.rounds (2 ^ j) need = some nc ∧ need ≤ nc :=
  ⟨fun _ _ _ hspec => StrBuf.run_start hspec, fun _ _ _ hspec => Vector.run_start hspec,
    fun _ _ hj hneed => growTo_ends hj hneed⟩

/-- There is always room. -/
def plenty {α : Type} (x : α) : Memory α := ⟨fun _ => true, fun _ _ => rfl, fun _ => x⟩

/-- A buffer is appended to itself, and a cell is inserted in front of two. -/
theorem growable_refines_small :
    (∃ w, StrBuf.run (plenty nul) [.create, .appendCh 0 (code 'a'), .appendBuf 0 0] StrBuf.World.start =
        .ok ([.buffer 0, .none, .none], w) ∧ StrBuf.Holds [[code 'a', code 'a']] w) ∧
      ∃ w, Vector.run (plenty 0) [.createCap 2, .push 0 1, .push 0 2, .insert 0 0 5, .pop 0] Vector.World.start =
        .ok ([.vector 0, .none, .none, .none, .cell 2], w) ∧ Vector.Holds [[5, 1]] w := by
  have hrefines := growable_refines (plenty nul) (plenty 0)
  refine ⟨hrefines.1 _ _ _ ?_, hrefines.2.1 _ _ _ ?_⟩
  · decide
  · decide

/-- A text that has a character more than there are indices. -/
theorem append_tooLong : ∃ s : Chars, s.text.length = 2 ^ 28 + 1 ∧
    StrBuf.specRun (2 ^ 30) [] [.create, .append 0 s] = some ([s.text], [.buffer 0, .none]) ∧
      ∀ (M : Memory Code) r, StrBuf.run M [.create, .append 0 s] StrBuf.World.start ≠ .ok r := by
  have hpos : 0 < 2 ^ 28 + 1 := by decide
  have hsmall : 2 ^ 28 + 1 < 2 ^ 63 := by decide
  have htext := StrBuf.text_letters hpos hsmall
  generalize StrBuf.letters (2 ^ 28 + 1) hpos hsmall = s at htext
  have hlen : s.text.length = 2 ^ 28 + 1 := by rw [htext, List.length_replicate]
  refine ⟨s, hlen, ?_, fun M r hrun => ?_⟩
  · simp [StrBuf.specRun, StrBuf.spec, StrBuf.extend, hlen]
  · have hmax : StrBuf.maxIdx + 1 = 2 ^ 28 := rfl
    have hstops : Runs (fun _ => True) (StrBuf.run M [.create, .append 0 s] StrBuf.World.start) fun _ => False := by
      refine Runs.bindS (StrBuf.runs_or_stops _) fun _ w _ => ?_
      have happend := StrBuf.append_stops (M := M) (show StrBuf.maxIdx + 1 < s.text.length by omega) 0 w
      have hexec : Runs (fun _ => True) (StrBuf.exec M (.append 0 s) w) fun _ => False :=
        Runs.bindS happend fun _ _ hfalse => False.elim hfalse
      have hrest : Runs (fun _ => True) (StrBuf.run M [.append 0 s] w) fun _ => False :=
        Runs.bindS hexec fun _ _ hfalse => False.elim hfalse
      exact Runs.bindS hrest fun _ _ hfalse => False.elim hfalse
    rw [hrun] at hstops
    exact hstops

end NewM2.Winrt.Growable
