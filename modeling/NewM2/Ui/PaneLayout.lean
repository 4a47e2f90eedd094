import Mathlib
import NewM2.Lib.Chars

/-!
# Pane layouts (`library/uimod/PaneLayout.mod`)

`SplitLayout.arrange` and `StackLayout.arrange` set the rectangles of the children of a pane. A sum of CARDINALs
is wrapped around; a difference that would be is the error `Wraps`. Only the first two children of a split get
rectangles. The axis of a layout is the direction in which its children follow each other. -/

namespace NewM2.Ui.PaneLayout

structure Rect where
  x : Nat
  y : Nat
  w : Nat
  h : Nat
deriving DecidableEq

/-- A child of the host: whether it is hidden, and its rectangle. -/
structure Child where
  hidden : Bool
  rect : Rect
deriving DecidableEq

inductive Orientation
  | horizontal
  | vertical
deriving DecidableEq

inductive Wraps
  | difference
deriving DecidableEq

/-- `a - b` -/
def minus (a b : Nat) : Except Wraps Nat := if b ≤ a then .ok (a - b) else .error .difference

def Child.setRect (c : Child) (x y w h : Nat) : Child := { c with rect := ⟨x, y, w, h⟩ }

/-- `share` is `TRUNC(total * weight)`. -/
def splitSize (total share minA minB : Nat) : Except Wraps Nat := do
  let s := share
  let s := if s < minA then minA else s
  let s ← if total < wrap (s + minB) then (if minB < total then minus total minB else pure 0) else pure s
  return if total < s then total else s

structure SplitLayout where
  dir : Orientation
  /-- What the weight makes of a total size. -/
  weight : Nat → Nat
  minFirst : Nat
  minSecond : Nat

def SplitLayout.arrange (lay : SplitLayout) (gDivW : Nat) (cs : List Child) (x y w h : Nat) :
    Except Wraps (List Child) :=
  match cs with
  | c0 :: c1 :: others =>
    if c0.hidden = true ∧ c1.hidden = true then .ok (c0.setRect x y 0 0 :: c1.setRect x y 0 0 :: others)
    else if c0.hidden = true then .ok (c0.setRect x y 0 0 :: c1.setRect x y w h :: others)
    else if c1.hidden = true then .ok (c0.setRect x y w h :: c1.setRect x y 0 0 :: others)
    else if lay.dir = .horizontal then do
      let s0 ← splitSize w (lay.weight w) lay.minFirst lay.minSecond
      if 0 < gDivW ∧ wrap (s0 + gDivW) ≤ w then do
        let w1 ← minus (← minus w s0) gDivW
        return c0.setRect x y s0 h :: c1.setRect (wrap (wrap (x + s0) + gDivW)) y w1 h :: others
      else do
        let w1 ← minus w s0
        return c0.setRect x y s0 h :: c1.setRect (wrap (x + s0)) y w1 h :: others
    else do
      let s0 ← splitSize h (lay.weight h) lay.minFirst lay.minSecond
      if 0 < gDivW ∧ wrap (s0 + gDivW) ≤ h then do
        let h1 ← minus (← minus h s0) gDivW
        return c0.setRect x y w s0 :: c1.setRect x (wrap (wrap (y + s0) + gDivW)) w h1 :: others
      else do
        let h1 ← minus h s0
        return c0.setRect x y w s0 :: c1.setRect x (wrap (y + s0)) w h1 :: others
  | cs => .ok cs

structure StackLayout where
  dir : Orientation
  gap : Nat

/-- The loop that counts the visible children. -/
def countVisible : List Child → Nat
  | [] => 0
  | c :: cs => if c.hidden = true then countVisible cs else countVisible cs + 1

/-- What is left of an extent for the children themselves. -/
def available (extent vis gap : Nat) : Except Wraps Nat :=
  if 1 < vis then do
    let n ← minus vis 1
    if wrap (n * gap) < extent then minus extent (wrap (n * gap)) else return 0
  else return extent

/-- The second loop, for `dir = Vertical`. -/
def placeVertical (x y w each gap : Nat) : Nat → List Child → List Child
  | _, [] => []
  | off, c :: cs =>
    if c.hidden = true then c.setRect x y 0 0 :: placeVertical x y w each gap off cs
    else c.setRect x off w each :: placeVertical x y w each gap (wrap (wrap (off + each) + gap)) cs

def placeHorizontal (x y h each gap : Nat) : Nat → List Child → List Child
  | _, [] => []
  | off, c :: cs =>
    if c.hidden = true then c.setRect x y 0 0 :: placeHorizontal x y h each gap off cs
    else c.setRect off y each h :: placeHorizontal x y h each gap (wrap (wrap (off + each) + gap)) cs

def StackLayout.arrange (lay : StackLayout) (cs : List Child) (x y w h : Nat) : Except Wraps (List Child) :=
  let vis := countVisible cs
  if vis = 0 then .ok cs
  else if lay.dir = .vertical then do
    let avail ← available h vis lay.gap
    return placeVertical x y w (avail / vis) lay.gap y cs
  else do
    let avail ← available w vis lay.gap
    return placeHorizontal x y h (avail / vis) lay.gap x cs

/-! ## Rectangles -/

/-- The rectangle `r` is within `host`. -/
def Rect.Inside (r host : Rect) : Prop :=
  host.x ≤ r.x ∧ r.x + r.w ≤ host.x + host.w ∧ host.y ≤ r.y ∧ r.y + r.h ≤ host.y + host.h

def Rect.Apart (r r' : Rect) : Prop :=
  r.x + r.w ≤ r'.x ∨ r'.x + r'.w ≤ r.x ∨ r.y + r.h ≤ r'.y ∨ r'.y + r'.h ≤ r.y

/-- The visible children are within the host and do not overlap. -/
def Laid (host : Rect) (cs : List Child) : Prop :=
  (∀ c ∈ cs, c.hidden = false → c.rect.Inside host) ∧
    cs.Pairwise fun c c' => c.hidden = false → c'.hidden = false → c.rect.Apart c'.rect

/-- The size along the axis. -/
def Rect.along (r : Rect) : Orientation → Nat
  | .horizontal => r.w
  | .vertical => r.h

/-- Where the rectangle begins on the axis. -/
def Rect.start (r : Rect) : Orientation → Nat
  | .horizontal => r.x
  | .vertical => r.y

/-- The part of `host` of size `len` at `pos` on the axis. -/
def Rect.part (host : Rect) (dir : Orientation) (pos len : Nat) : Rect :=
  match dir with
  | .horizontal => ⟨pos, host.y, len, host.h⟩
  | .vertical => ⟨host.x, pos, host.w, len⟩

section rects
variable {host : Rect} {dir : Orientation} {pos len pos' len' : Nat}

@[simp] theorem Rect.along_part (host : Rect) (dir : Orientation) (pos len : Nat) :
    (host.part dir pos len).along dir = len := by
  cases dir <;> rfl

theorem Rect.part_inside_iff :
    (host.part dir pos len).Inside host ↔ host.start dir ≤ pos ∧ pos + len ≤ host.start dir + host.along dir := by
  cases dir with
  | horizontal => exact ⟨fun h => ⟨h.1, h.2.1⟩, fun h => ⟨h.1, h.2, le_rfl, le_rfl⟩⟩
  | vertical => exact ⟨fun h => ⟨h.2.2.1, h.2.2.2⟩, fun h => ⟨le_rfl, le_rfl, h.1, h.2⟩⟩

theorem Rect.part_apart (h : pos + len ≤ pos') : (host.part dir pos len).Apart (host.part dir pos' len') := by
  cases dir with
  | horizontal => exact .inl h
  | vertical => exact .inr (.inr (.inl h))

theorem Rect.inside_self (host : Rect) : host.Inside host := ⟨le_rfl, le_rfl, le_rfl, le_rfl⟩

end rects

theorem minus_eq {a b : Nat} (h : b ≤ a) : minus a b = .ok (a - b) := if_pos h

/-! ## A split -/

section split
variable {lay : SplitLayout} {gDivW total share minA minB : Nat} {c0 c1 : Child} {others cs : List Child} {host : Rect}

/-- The size of the first child. -/
def firstSize (total share minA minB : Nat) : Nat :=
  if total < max share minA + minB then total - minB else max share minA

/-- The sums of a split fit, and the weighted size is within the host. -/
structure SplitLayout.Fits (lay : SplitLayout) (gDivW : Nat) (host : Rect) : Prop where
  right : host.x + host.w < 2 ^ 64
  bottom : host.y + host.h < 2 ^ 64
  minima : max (lay.weight (host.along lay.dir)) lay.minFirst + lay.minSecond < 2 ^ 64
  divider : firstSize (host.along lay.dir) (lay.weight (host.along lay.dir)) lay.minFirst lay.minSecond + gDivW < 2 ^ 64
  weight : lay.weight (host.along lay.dir) ≤ host.along lay.dir

/-- The children are laid out, with at least their minimum sizes if these and the divider fit in the host. -/
def SplitLayout.Good (lay : SplitLayout) (gDivW : Nat) (cs : List Child) (host : Rect) : Prop :=
  ∃ cs', lay.arrange gDivW cs host.x host.y host.w host.h = .ok cs' ∧ (2 ≤ cs.length → Laid host (cs'.take 2)) ∧
    (lay.minFirst + lay.minSecond + gDivW ≤ host.along lay.dir → ∀ c0 c1, cs'.take 2 = [c0, c1] →
      (c0.hidden = false → lay.minFirst ≤ c0.rect.along lay.dir) ∧
        (c1.hidden = false → lay.minSecond ≤ c1.rect.along lay.dir))

/-- The minimum sizes and the divider fit, but the divider is taken off what the minimum size of the second child
has left, or almost left. -/
def SplitLayout.Squeezed (lay : SplitLayout) (gDivW : Nat) (cs : List Child) (host : Rect) : Prop :=
  (∃ c0 c1 others, cs = c0 :: c1 :: others ∧ c0.hidden = false ∧ c1.hidden = false) ∧
    lay.minFirst + lay.minSecond + gDivW ≤ host.along lay.dir ∧ 0 < gDivW ∧
    host.along lay.dir < lay.weight (host.along lay.dir) + lay.minSecond + gDivW ∧
    (lay.weight (host.along lay.dir) + gDivW ≤ host.along lay.dir ∨ gDivW ≤ lay.minSecond)

theorem firstSize_le (total share minA minB : Nat) : firstSize total share minA minB ≤ total := by
  rw [firstSize]
  split_ifs with h
  · exact Nat.sub_le _ _
  · omega

theorem splitSize_eq (hfit : max share minA + minB < 2 ^ 64) :
    splitSize total share minA minB = .ok (firstSize total share minA minB) := by
  have hmax : (if share < minA then minA else share) = max share minA := by
    split_ifs with h
    · exact (max_eq_right h.le).symm
    · exact (max_eq_left (not_lt.1 h)).symm
  have hwrap : wrap (max share minA + minB) = max share minA + minB := wrap_of_lt hfit
  have hle := firstSize_le total share minA minB
  have hlast : (if total < firstSize total share minA minB then total else firstSize total share minA minB) =
      firstSize total share minA minB := if_neg (not_lt.2 hle)
  rw [splitSize, hmax, hwrap]
  rw [firstSize] at hlast ⊢
  by_cases hover : total < max share minA + minB
  · rw [if_pos hover] at hlast ⊢
    rw [if_pos hover]
    by_cases hroom : minB < total
    · rw [if_pos hroom, minus_eq hroom.le]
      exact congrArg Except.ok hlast
    · rw [if_neg hroom, Nat.sub_eq_zero_of_le (not_lt.1 hroom)]
      rfl
  · rw [if_neg hover] at hlast ⊢
    rw [if_neg hover]
    exact congrArg Except.ok hlast

/-- The position of the second child behind the first one, and its size. -/
def second (gDivW total s0 : Nat) : Nat × Nat :=
  if 0 < gDivW ∧ s0 + gDivW ≤ total then (s0 + gDivW, total - s0 - gDivW) else (s0, total - s0)

theorem second_le {s0 : Nat} (hs0 : s0 ≤ total) :
    s0 ≤ (second gDivW total s0).1 ∧ (second gDivW total s0).1 + (second gDivW total s0).2 ≤ total := by
  rw [second]
  split_ifs with hgap
  · have hroom := hgap.2
    exact ⟨Nat.le_add_right _ _, by dsimp only; omega⟩
  · exact ⟨le_rfl, by dsimp only; omega⟩

/-- Two visible children. -/
theorem SplitLayout.arrange_visible (hfit : lay.Fits gDivW host) (h0 : c0.hidden = false) (h1 : c1.hidden = false) :
    lay.arrange gDivW (c0 :: c1 :: others) host.x host.y host.w host.h =
      let total := host.along lay.dir
      let s0 := firstSize total (lay.weight total) lay.minFirst lay.minSecond
      .ok ({ c0 with rect := host.part lay.dir (host.start lay.dir) s0 } ::
        { c1 with rect := host.part lay.dir (host.start lay.dir + (second gDivW total s0).1) (second gDivW total s0).2 } ::
        others) := by
  obtain ⟨hright, hbottom, hminima, hdivider, -⟩ := hfit
  obtain ⟨dir, weight, minFirst, minSecond⟩ := lay
  have hnone : ¬ (c0.hidden = true ∧ c1.hidden = true) := by simp [h0]
  have hfirst : ¬ c0.hidden = true := by simp [h0]
  have hsecond : ¬ c1.hidden = true := by simp [h1]
  rw [SplitLayout.arrange, if_neg hnone, if_neg hfirst, if_neg hsecond]
  cases dir with
  | horizontal =>
    change max (weight host.w) minFirst + minSecond < 2 ^ 64 at hminima
    change firstSize host.w (weight host.w) minFirst minSecond + gDivW < 2 ^ 64 at hdivider
    have hle := firstSize_le host.w (weight host.w) minFirst minSecond
    rw [if_pos rfl, @splitSize_eq host.w (weight host.w) minFirst minSecond hminima]
    change (if 0 < gDivW ∧ wrap (firstSize host.w (weight host.w) minFirst minSecond + gDivW) ≤ host.w then _ else _) = _
    dsimp only [Rect.along, Rect.start, Rect.part]
    generalize firstSize host.w (weight host.w) minFirst minSecond = s0 at hle hdivider ⊢
    rw [wrap_of_lt hdivider, second]
    by_cases hgap : 0 < gDivW ∧ s0 + gDivW ≤ host.w
    · have hroom := hgap.2
      rw [if_pos hgap, if_pos hgap, minus_eq hle, wrap_of_lt (show host.x + s0 < 2 ^ 64 by omega)]
      change (do
        let w1 ← minus (host.w - s0) gDivW
        _) = _
      rw [minus_eq (by omega), wrap_of_lt (show host.x + s0 + gDivW < 2 ^ 64 by omega), Nat.add_assoc]
      rfl
    · rw [if_neg hgap, if_neg hgap, minus_eq hle, wrap_of_lt (show host.x + s0 < 2 ^ 64 by omega)]
      rfl
  | vertical =>
    change max (weight host.h) minFirst + minSecond < 2 ^ 64 at hminima
    change firstSize host.h (weight host.h) minFirst minSecond + gDivW < 2 ^ 64 at hdivider
    have hle := firstSize_le host.h (weight host.h) minFirst minSecond
    rw [if_neg (show ¬ Orientation.vertical = .horizontal by decide),
      @splitSize_eq host.h (weight host.h) minFirst minSecond hminima]
    change (if 0 < gDivW ∧ wrap (firstSize host.h (weight host.h) minFirst minSecond + gDivW) ≤ host.h then _ else _) = _
    dsimp only [Rect.along, Rect.start, Rect.part]
    generalize firstSize host.h (weight host.h) minFirst minSecond = s0 at hle hdivider ⊢
    rw [wrap_of_lt hdivider, second]
    by_cases hgap : 0 < gDivW ∧ s0 + gDivW ≤ host.h
    · have hroom := hgap.2
      rw [if_pos hgap, if_pos hgap, minus_eq hle, wrap_of_lt (show host.y + s0 < 2 ^ 64 by omega)]
      change (do
        let h1 ← minus (host.h - s0) gDivW
        _) = _
      rw [minus_eq (by omega), wrap_of_lt (show host.y + s0 + gDivW < 2 ^ 64 by omega), Nat.add_assoc]
      rfl
    · rw [if_neg hgap, if_neg hgap, minus_eq hle, wrap_of_lt (show host.y + s0 < 2 ^ 64 by omega)]
      rfl

theorem laid_pair : Laid host [c0, c1] ↔ (c0.hidden = false → c0.rect.Inside host) ∧
    (c1.hidden = false → c1.rect.Inside host) ∧
    (c0.hidden = false → c1.hidden = false → c0.rect.Apart c1.rect) := by
  simp only [Laid, List.forall_mem_cons, List.not_mem_nil, false_imp_iff, implies_true, and_true,
    List.pairwise_pair, and_assoc]

theorem SplitLayout.good_iff_of_arrange {d0 d1 : Child}
    (h : lay.arrange gDivW (c0 :: c1 :: others) host.x host.y host.w host.h = .ok (d0 :: d1 :: others)) :
    lay.Good gDivW (c0 :: c1 :: others) host ↔ Laid host [d0, d1] ∧
      (lay.minFirst + lay.minSecond + gDivW ≤ host.along lay.dir →
        (d0.hidden = false → lay.minFirst ≤ d0.rect.along lay.dir) ∧
          (d1.hidden = false → lay.minSecond ≤ d1.rect.along lay.dir)) := by
  have hlen : 2 ≤ (c0 :: c1 :: others).length := Nat.le_add_left _ _
  constructor
  · rintro ⟨cs', hrun, hlaid, hmin⟩
    rw [h] at hrun
    obtain rfl := Except.ok.inj hrun
    exact ⟨hlaid hlen, fun hroom => hmin hroom d0 d1 rfl⟩
  · rintro ⟨hlaid, hmin⟩
    refine ⟨_, h, fun _ => hlaid, fun hroom e0 e1 he => ?_⟩
    obtain ⟨h0, h1⟩ : d0 = e0 ∧ d1 = e1 := by simpa using he
    rw [← h0, ← h1]
    exact hmin hroom

/-- With a hidden child the other one has the whole host. -/
theorem SplitLayout.good_of_hidden (hhidden : c0.hidden = true ∨ c1.hidden = true) :
    lay.Good gDivW (c0 :: c1 :: others) host := by
  have hfit : lay.minFirst + lay.minSecond + gDivW ≤ host.along lay.dir →
      lay.minFirst ≤ host.along lay.dir ∧ lay.minSecond ≤ host.along lay.dir := fun h => by omega
  cases h0 : c0.hidden with
  | true =>
    cases h1 : c1.hidden with
    | true =>
      have harrange : lay.arrange gDivW (c0 :: c1 :: others) host.x host.y host.w host.h =
          .ok (c0.setRect host.x host.y 0 0 :: c1.setRect host.x host.y 0 0 :: others) := by
        rw [arrange, if_pos ⟨h0, h1⟩]
      rw [good_iff_of_arrange harrange]
      simp [laid_pair, Child.setRect, h0, h1]
    | false =>
      have harrange : lay.arrange gDivW (c0 :: c1 :: others) host.x host.y host.w host.h =
          .ok (c0.setRect host.x host.y 0 0 :: c1.setRect host.x host.y host.w host.h :: others) := by
        rw [arrange, if_neg (by simp [h1]), if_pos h0]
      rw [good_iff_of_arrange harrange]
      simp only [laid_pair, Child.setRect, h0, h1]
      exact ⟨⟨nofun, fun _ => host.inside_self, nofun⟩, fun hroom => ⟨nofun, fun _ => (hfit hroom).2⟩⟩
  | false =>
    have h1 : c1.hidden = true := by simpa [h0] using hhidden
    have harrange : lay.arrange gDivW (c0 :: c1 :: others) host.x host.y host.w host.h =
        .ok (c0.setRect host.x host.y host.w host.h :: c1.setRect host.x host.y 0 0 :: others) := by
      rw [arrange, if_neg (by simp [h0]), if_neg (by simp [h0]), if_pos h1]
    rw [good_iff_of_arrange harrange]
    simp only [laid_pair, Child.setRect, h0, h1]
    exact ⟨⟨fun _ => host.inside_self, nofun, nofun⟩, fun hroom => ⟨fun _ => (hfit hroom).1, nofun⟩⟩

/-- The minimum size of the second child is kept just if the divider does not squeeze it. -/
theorem second_size_iff {div : Nat} (hroom : minA + minB + div ≤ total) :
    minB ≤ (second div total (firstSize total share minA minB)).2 ↔
      ¬ (0 < div ∧ total < share + minB + div ∧ (share + div ≤ total ∨ div ≤ minB)) := by
  rw [second, firstSize]
  split_ifs with hover hgap hgap
  · dsimp only
    omega
  · dsimp only
    omega
  · dsimp only
    omega
  · dsimp only
    omega

theorem minFirst_le {div : Nat} (hroom : minA + minB + div ≤ total) : minA ≤ firstSize total share minA minB := by
  rw [firstSize]
  split_ifs with hover
  · omega
  · exact le_max_right _ _

/-- A split is laid out well just if the divider does not squeeze the second child. -/
theorem SplitLayout.good_iff (hfit : lay.Fits gDivW host) :
    lay.Good gDivW cs host ↔ ¬ lay.Squeezed gDivW cs host := by
  have hshort : cs.length < 2 → lay.Good gDivW cs host := by
    intro hlen
    refine ⟨cs, ?_, fun h => absurd h (not_le.2 hlen), fun _ c0 c1 htake => ?_⟩
    · rw [arrange.eq_def]
      split
      · rw [List.length_cons, List.length_cons] at hlen
        omega
      · rfl
    · have hle := List.length_take_le' 2 cs
      rw [htake] at hle
      exact absurd hle (not_le.2 hlen)
  by_cases hvisible : ∃ c0 c1 others, cs = c0 :: c1 :: others ∧ c0.hidden = false ∧ c1.hidden = false
  · obtain ⟨c0, c1, others, rfl, h0, h1⟩ := hvisible
    rw [good_iff_of_arrange (arrange_visible hfit h0 h1), Squeezed]
    have hweight := hfit.weight
    have hle := firstSize_le (host.along lay.dir) (lay.weight (host.along lay.dir)) lay.minFirst lay.minSecond
    have hlaid : ∀ s0, s0 ≤ host.along lay.dir → Laid host
        [{ c0 with rect := host.part lay.dir (host.start lay.dir) s0 },
          { c1 with
            rect := host.part lay.dir (host.start lay.dir + (second gDivW (host.along lay.dir) s0).1)
              (second gDivW (host.along lay.dir) s0).2 }] := by
      intro s0 hs0
      obtain ⟨hbehind, hend⟩ := @second_le gDivW _ _ hs0
      exact laid_pair.2 ⟨fun _ => Rect.part_inside_iff.2 ⟨le_rfl, Nat.add_le_add_left hs0 _⟩,
        fun _ => Rect.part_inside_iff.2 ⟨Nat.le_add_right _ _, by omega⟩,
        fun _ _ => Rect.part_apart (Nat.add_le_add_left hbehind _)⟩
    constructor
    · rintro ⟨-, hmin⟩ ⟨-, hroom, hsqueezed⟩
      have hsize := (hmin hroom).2 h1
      rw [Rect.along_part] at hsize
      exact (second_size_iff hroom).1 hsize hsqueezed
    · intro hnot
      refine ⟨hlaid _ hle, fun hroom => ⟨fun _ => ?_, fun _ => ?_⟩⟩
      · rw [Rect.along_part]
        exact minFirst_le hroom
      · rw [Rect.along_part]
        exact (second_size_iff hroom).2 fun h => hnot ⟨⟨c0, c1, others, rfl, h0, h1⟩, hroom, h⟩
  · refine iff_of_true ?_ fun h => hvisible h.1
    match cs with
    | [] => exact hshort (by decide)
    | [c] => exact hshort (by simp)
    | c0 :: c1 :: others =>
      refine good_of_hidden ?_
      by_contra hboth
      rw [not_or, Bool.not_eq_true, Bool.not_eq_true] at hboth
      exact hvisible ⟨c0, c1, others, rfl, hboth⟩

end split

/-! ## A stack -/

section stack
variable {lay : StackLayout} {cs : List Child} {host : Rect} {dir : Orientation} {each gap off : Nat}

/-- The size of the children. -/
def eachSize (extent vis gap : Nat) : Nat :=
  (if 1 < vis then (if (vis - 1) * gap < extent then extent - (vis - 1) * gap else 0) else extent) / vis

/-- The sums of a stack fit. -/
structure StackLayout.Fits (lay : StackLayout) (cs : List Child) (host : Rect) : Prop where
  right : host.x + host.w < 2 ^ 64
  bottom : host.y + host.h < 2 ^ 64
  offsets : host.start lay.dir +
    countVisible cs * (eachSize (host.along lay.dir) (countVisible cs) lay.gap + lay.gap) < 2 ^ 64

def StackLayout.Good (lay : StackLayout) (cs : List Child) (host : Rect) : Prop :=
  ∃ cs', lay.arrange cs host.x host.y host.w host.h = .ok cs' ∧ Laid host cs'

/-- The gaps between the visible children fit in the host. -/
def StackLayout.Roomy (lay : StackLayout) (cs : List Child) (host : Rect) : Prop :=
  (countVisible cs - 1) * lay.gap ≤ host.along lay.dir

/-- The visible children at `off`, and one after the other. -/
def place (host : Rect) (dir : Orientation) (each gap : Nat) : Nat → List Child → List Child
  | _, [] => []
  | off, c :: cs =>
    if c.hidden = true then c.setRect host.x host.y 0 0 :: place host dir each gap off cs
    else { c with rect := host.part dir off each } :: place host dir each gap (off + (each + gap)) cs

theorem wrap_step (h : off + (each + gap) < 2 ^ 64) : wrap (wrap (off + each) + gap) = off + (each + gap) := by
  rw [wrap_of_lt (show off + each < 2 ^ 64 by omega), wrap_of_lt (by omega), Nat.add_assoc]

theorem placeVertical_eq (h : off + countVisible cs * (each + gap) < 2 ^ 64) :
    placeVertical host.x host.y host.w each gap off cs = place host .vertical each gap off cs := by
  induction cs generalizing off with
  | nil => rfl
  | cons c cs ih =>
    rw [countVisible] at h
    rw [placeVertical, place]
    split_ifs at h ⊢ with hhidden
    · rw [ih h]
    · rw [Nat.add_mul, Nat.one_mul] at h
      rw [wrap_step (by omega), ih (by omega)]
      rfl

theorem placeHorizontal_eq (h : off + countVisible cs * (each + gap) < 2 ^ 64) :
    placeHorizontal host.x host.y host.h each gap off cs = place host .horizontal each gap off cs := by
  induction cs generalizing off with
  | nil => rfl
  | cons c cs ih =>
    rw [countVisible] at h
    rw [placeHorizontal, place]
    split_ifs at h ⊢ with hhidden
    · rw [ih h]
    · rw [Nat.add_mul, Nat.one_mul] at h
      rw [wrap_step (by omega), ih (by omega)]
      rfl

/-- Where a visible child is. -/
theorem place_visible {c : Child} (hc : c ∈ place host dir each gap off cs) (hvisible : c.hidden = false) :
    ∃ k, k < countVisible cs ∧ c.rect = host.part dir (off + k * (each + gap)) each := by
  induction cs generalizing off with
  | nil => exact absurd hc List.not_mem_nil
  | cons d cs ih =>
    rw [place] at hc
    rw [countVisible]
    split_ifs at hc ⊢ with hhidden
    · rcases List.mem_cons.1 hc with rfl | hc
      · exact absurd (hhidden.symm.trans hvisible) Bool.true_eq_false.mp
      · exact ih hc
    · rcases List.mem_cons.1 hc with rfl | hc
      · exact ⟨0, Nat.succ_pos _, by rw [Nat.zero_mul, Nat.add_zero]⟩
      · obtain ⟨k, hk, hrect⟩ := ih hc
        exact ⟨k + 1, Nat.succ_lt_succ hk, by rw [hrect, Nat.succ_mul, Nat.add_assoc, Nat.add_comm (k * _)]⟩

/-- There is a last one. -/
theorem place_last {n : Nat} (h : countVisible cs = n + 1) :
    ∃ c ∈ place host dir each gap off cs, c.hidden = false ∧ c.rect = host.part dir (off + n * (each + gap)) each := by
  induction cs generalizing off n with
  | nil => exact absurd h (Nat.succ_ne_zero n).symm
  | cons d cs ih =>
    rw [countVisible] at h
    rw [place]
    split_ifs at h ⊢ with hhidden
    · obtain ⟨c, hc, hrest⟩ := ih h
      exact ⟨c, List.mem_cons_of_mem _ hc, hrest⟩
    · cases n with
      | zero =>
        refine ⟨_, List.mem_cons_self .., Bool.not_eq_true _ ▸ hhidden, ?_⟩
        rw [Nat.zero_mul, Nat.add_zero]
      | succ n =>
        obtain ⟨c, hc, hvisible, hrect⟩ := @ih (off + (each + gap)) _ (Nat.succ.inj h)
        refine ⟨c, List.mem_cons_of_mem _ hc, hvisible, ?_⟩
        rw [hrect, Nat.succ_mul, Nat.add_assoc, Nat.add_comm (n * _)]

theorem place_apart (host : Rect) (dir : Orientation) (each gap off : Nat) (cs : List Child) :
    (place host dir each gap off cs).Pairwise fun c c' =>
      c.hidden = false → c'.hidden = false → c.rect.Apart c'.rect := by
  induction cs generalizing off with
  | nil => exact List.Pairwise.nil
  | cons d cs ih =>
    rw [place]
    split_ifs with hhidden
    · exact (ih off).cons fun c _ hd => absurd (hhidden.symm.trans hd) Bool.true_eq_false.mp
    · refine (ih _).cons fun c hc _ hvisible => ?_
      obtain ⟨k, -, hrect⟩ := place_visible hc hvisible
      rw [hrect]
      exact Rect.part_apart (by omega)

theorem countVisible_eq_zero (h : countVisible cs = 0) : ∀ c ∈ cs, c.hidden = true := by
  induction cs with
  | nil => exact fun _ hc => absurd hc List.not_mem_nil
  | cons d cs ih =>
    rw [countVisible] at h
    split_ifs at h with hhidden
    · exact List.forall_mem_cons.2 ⟨hhidden, ih h⟩

theorem available_eq {extent vis : Nat} (hfit : vis * gap < 2 ^ 64) :
    available extent vis gap =
      .ok (if 1 < vis then (if (vis - 1) * gap < extent then extent - (vis - 1) * gap else 0) else extent) := by
  have hmul : (vis - 1) * gap < 2 ^ 64 := (Nat.mul_le_mul_right gap (Nat.sub_le vis 1)).trans_lt hfit
  rw [available]
  by_cases hvis : 1 < vis
  · rw [if_pos hvis, if_pos hvis, minus_eq hvis.le]
    change (if wrap ((vis - 1) * gap) < extent then minus extent (wrap ((vis - 1) * gap)) else pure 0) = _
    rw [wrap_of_lt hmul]
    split_ifs with hroom
    · exact minus_eq hroom.le
    · rfl
  · rw [if_neg hvis, if_neg hvis]
    rfl

/-- The children and the gaps between them fit just if the gaps do. -/
theorem eachSize_fits_iff {extent n : Nat} :
    n * (eachSize extent (n + 1) gap + gap) + eachSize extent (n + 1) gap ≤ extent ↔ n * gap ≤ extent := by
  constructor
  · intro h
    rw [Nat.mul_add] at h
    omega
  · intro h
    have hle : (n + 1) * eachSize extent (n + 1) gap ≤ extent - n * gap := by
      refine (Nat.mul_div_le _ _).trans ?_
      rw [Nat.add_sub_cancel]
      split_ifs with hvis hroom
      · exact le_rfl
      · exact Nat.zero_le _
      · have hzero : n = 0 := by omega
        rw [hzero, Nat.zero_mul, Nat.sub_zero]
    rw [Nat.add_mul, Nat.one_mul] at hle
    rw [Nat.mul_add]
    omega

/-- The children of a stack, one after the other. -/
theorem StackLayout.arrange_eq (hfit : lay.Fits cs host) :
    lay.arrange cs host.x host.y host.w host.h =
      .ok (if countVisible cs = 0 then cs
        else place host lay.dir (eachSize (host.along lay.dir) (countVisible cs) lay.gap) lay.gap (host.start lay.dir) cs) := by
  obtain ⟨-, -, hoffsets⟩ := hfit
  obtain ⟨dir, gap⟩ := lay
  have hgap : countVisible cs * gap < 2 ^ 64 := by
    rw [Nat.mul_add] at hoffsets
    dsimp only at hoffsets
    omega
  rw [arrange]
  by_cases hnone : countVisible cs = 0
  · rw [if_pos hnone, if_pos hnone]
  · rw [if_neg hnone, if_neg hnone]
    cases dir with
    | horizontal =>
      rw [if_neg (show ¬ Orientation.horizontal = .vertical by decide), available_eq hgap]
      exact congrArg Except.ok (placeHorizontal_eq hoffsets)
    | vertical =>
      rw [if_pos (show Orientation.vertical = .vertical from rfl), available_eq hgap]
      exact congrArg Except.ok (placeVertical_eq hoffsets)

/-- A stack is laid out well just if the gaps fit in the host. -/
theorem StackLayout.good_iff (hfit : lay.Fits cs host) : lay.Good cs host ↔ lay.Roomy cs host := by
  have hgood : lay.Good cs host ↔ Laid host (if countVisible cs = 0 then cs
      else place host lay.dir (eachSize (host.along lay.dir) (countVisible cs) lay.gap) lay.gap (host.start lay.dir) cs) := by
    constructor
    · rintro ⟨cs', hrun, hlaid⟩
      rw [arrange_eq hfit] at hrun
      rwa [Except.ok.inj hrun]
    · exact fun hlaid => ⟨_, arrange_eq hfit, hlaid⟩
  rw [hgood, Roomy]
  cases hvis : countVisible cs with
  | zero =>
    have hhidden := countVisible_eq_zero hvis
    rw [if_pos rfl, Nat.zero_sub, Nat.zero_mul]
    refine iff_of_true ⟨fun c hc h => ?_, ?_⟩ (Nat.zero_le _)
    · exact absurd ((hhidden c hc).symm.trans h) Bool.true_eq_false.mp
    · exact List.pairwise_of_forall_mem_list fun c hc d _ h =>
        absurd ((hhidden c hc).symm.trans h) Bool.true_eq_false.mp
  | succ n =>
    rw [if_neg (Nat.succ_ne_zero n), Nat.add_sub_cancel, ← eachSize_fits_iff]
    generalize eachSize (host.along lay.dir) (n + 1) lay.gap = each
    constructor
    · rintro ⟨hinside, -⟩
      obtain ⟨c, hc, hvisible, hrect⟩ := @place_last cs host lay.dir each lay.gap (host.start lay.dir) n hvis
      have hc' := hinside c hc hvisible
      rw [hrect, Rect.part_inside_iff] at hc'
      omega
    · intro hroom
      refine ⟨fun c hc hvisible => ?_, place_apart _ _ _ _ _ _⟩
      obtain ⟨k, hk, hrect⟩ := place_visible hc hvisible
      have hmul : k * (each + lay.gap) ≤ n * (each + lay.gap) := Nat.mul_le_mul_right _ (by omega)
      rw [hrect, Rect.part_inside_iff]
      exact ⟨Nat.le_add_right _ _, by omega⟩

end stack

/-- Splits and stacks are laid out well just under these conditions. -/
theorem arrange_good_iff (split : SplitLayout) (stack : StackLayout) (gDivW : Nat) (cs : List Child) (host : Rect) :
    (split.Fits gDivW host → (split.Good gDivW cs host ↔ ¬ split.Squeezed gDivW cs host)) ∧
      (stack.Fits cs host → (stack.Good cs host ↔ stack.Roomy cs host)) :=
  ⟨fun hfit => SplitLayout.good_iff hfit, fun hfit => StackLayout.good_iff hfit⟩

/-- Two visible children in a host of 100 by 100. -/
def twoChildren : List Child := [⟨false, ⟨0, 0, 0, 0⟩⟩, ⟨false, ⟨0, 0, 0, 0⟩⟩]

def halves : SplitLayout := ⟨.horizontal, fun total => total / 2, 0, 50⟩

theorem halves_fits (gDivW : Nat) (h : gDivW ≤ 100) : halves.Fits gDivW ⟨0, 0, 100, 100⟩ :=
  ⟨by decide, by decide, by decide, by
    change 50 + gDivW < 2 ^ 64
    omega, by decide⟩

/-- Without a divider the halves are fine, and so is a stack with a gap of 20. -/
theorem arrange_good_plain : halves.Good 0 twoChildren ⟨0, 0, 100, 100⟩ ∧
    (StackLayout.mk .vertical 20).Good twoChildren ⟨0, 0, 100, 100⟩ :=
  have hgood := arrange_good_iff halves ⟨.vertical, 20⟩ 0 twoChildren ⟨0, 0, 100, 100⟩
  have hroomy : (2 - 1) * 20 ≤ 100 := by decide
  ⟨(hgood.1 (halves_fits 0 (by decide))).2 fun h => absurd h.2.2.1 (by decide),
    (hgood.2 ⟨by decide, by decide, by decide⟩).2 hroomy⟩

/-- The divider leaves 40 of 100 for the second child, which wants 50. -/
theorem divider_squeezes : halves.Fits 10 ⟨0, 0, 100, 100⟩ ∧ ¬ halves.Good 10 twoChildren ⟨0, 0, 100, 100⟩ := by
  refine ⟨halves_fits 10 (by decide), ?_⟩
  rintro ⟨cs', hrun, -, hmin⟩
  have hwanted : halves.arrange 10 twoChildren 0 0 100 100 =
      .ok [⟨false, ⟨0, 0, 50, 100⟩⟩, ⟨false, ⟨60, 0, 40, 100⟩⟩] := by rfl
  obtain rfl := Except.ok.inj (hwanted.symm.trans hrun)
  exact absurd ((hmin (by decide) _ _ rfl).2 rfl) (by decide)

end NewM2.Ui.PaneLayout
