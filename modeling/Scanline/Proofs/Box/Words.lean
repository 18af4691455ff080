import Scanline.Proofs.Box.Area

/-
  The arithmetic of boxes with edges between pixels stays in words. `ofFixed32?` and `coverageAt32?`
  calculate as `ofFixed?` and `coverageAt` do, and give up at the first intermediate value that is
  not a 32-bit word, unsigned where lengths and coverages are meant and signed where coordinates
  are. For edges that are words they never give up (`ofFixed32?_eq`, `coverageAt32?_eq`).
  `ofFixed?_exact` puts this together with the area that is covered.
-/

namespace Scanline

/-- `v` itself, if it is a 32-bit unsigned word. -/
def unsigned32? (v : Int) : Option Nat := if 0 ≤ v ∧ v < 0x100000000 then some v.toNat else none

theorem unsigned32?_of_eq {v : Int} {n : Nat} (h : v = n) (hn : n < 0x100000000) :
    unsigned32? v = some n := by
  subst h
  exact if_pos ⟨Int.natCast_nonneg n, by exact_mod_cast hn⟩

theorem word32?_of_range {v : Int} (hlo : minInt32 ≤ v) (hhi : v ≤ maxInt32) :
    word32? v = some v :=
  if_pos ⟨hlo, hhi⟩

namespace FractionalBox

def wideTier32? (fl fr m shift : Nat) : Option CoverageTier := do
  let left ← unsigned32? (fl * m)
  let right ← unsigned32? (fr * m)
  some ⟨left / (256 * shift), m / shift, right / (256 * shift), 1⟩

def uniform32? (f m shift : Nat) : Option CoverageTier := do
  let whole ← unsigned32? (f * m)
  some (.uniform (whole / shift))

def shrink32? (b : Box) (top bottom : CoverageTier) : Option Box := do
  let y0 ← word32? (b.y0 + if top.inner = 0 then 1 else 0)
  let y1 ← word32? (b.y1 - if bottom.inner = 0 then 1 else 0)
  some { b with y0, y1 }

def stack32? (top middle bottom : CoverageTier) (h : Nat) : Option (List CoverageTier) := do
  let whole ←
    if 2 < h then (unsigned32? (h - 2)).map fun rows => [{ middle with rows }] else some []
  some ((if top.inner ≠ 0 then [top] else []) ++ whole ++ [bottom])

/-- The box of one column, which starts `fx0` after its left edge and ends `fx1` after it. -/
def oneColumn32? (bounds : Box) (fx0 fx1 alpha topPart bottomPart h : Nat) :
    Option (Option FractionalBox) := do
  let fx ← unsigned32? (fx1 - fx0)
  let top ← uniform32? fx topPart 65536
  if h = 1 then some (if top.inner = 0 then none else some ⟨bounds, [top]⟩)
  else
    let middle ← uniform32? fx alpha 256
    let bottom ← uniform32? fx bottomPart 65536
    let bounds ← shrink32? bounds top bottom
    if bounds.y1 ≤ bounds.y0 ∨ middle.inner = 0 then some none
    else (stack32? top middle bottom h).map fun tiers => some ⟨bounds, tiers⟩

/-- The box of several columns, the first of which it leaves out `fx0` of. -/
def columns32? (bounds : Box) (fx0 fx1 alpha topPart bottomPart h : Nat) :
    Option (Option FractionalBox) := do
  let fx0 ← unsigned32? (256 - fx0)
  let top ← wideTier32? fx0 fx1 topPart 256
  let middle ← wideTier32? fx0 fx1 alpha 1
  let bottom ← wideTier32? fx0 fx1 bottomPart 256
  let bounds ← shrink32? bounds top bottom
  if bounds.y1 ≤ bounds.y0 then some none
  else if h = 1 then some (some ⟨bounds, [top]⟩)
  else (stack32? top middle bottom h).map fun tiers => some ⟨bounds, tiers⟩

/-- How far the stretch that ends at `v` reaches into its last cell. -/
def lastPart32? (v : Int) : Option Nat := do
  let last ← word32? (v - 1)
  unsigned32? ((last.toNat % 256 : Nat) + 1)

/-- `ofFixed?` in checked words. -/
def ofFixed32? (alpha : Nat) (x0 y0 x1 y1 : Int) : Option (Option FractionalBox) :=
  if x1 ≤ x0 ∨ y1 ≤ y0 ∨ x0 < 0 ∨ y0 < 0 then some none
  else do
    let alpha := min alpha 255
    let left := x0.toNat / 256
    let upper := y0.toNat / 256
    let right := (← unsigned32? (x1 + 255)) / 256
    let lower := (← unsigned32? (y1 + 255)) / 256
    let fx0 := x0.toNat % 256
    let fy0 := y0.toNat % 256
    let fx1 ← lastPart32? x1
    let fy1 ← lastPart32? y1
    let w ← unsigned32? (right - left)
    let h ← unsigned32? (lower - upper)
    let fy ← unsigned32? ((if h = 1 then fy1 else 256 : Nat) - fy0)
    let topPart ← unsigned32? (fy * alpha)
    let bottomPart ← unsigned32? (fy1 * alpha)
    let bounds : Box := ⟨← word32? left, ← word32? upper, ← word32? right, ← word32? lower⟩
    if w = 1 then oneColumn32? bounds fx0 fx1 alpha topPart bottomPart h
    else columns32? bounds fx0 fx1 alpha topPart bottomPart h

variable {x0 y0 x1 y1 : Int}

theorem mul_lt {f m : Nat} (hf : f ≤ 256) (hm : m ≤ 65536) : f * m < 0x100000000 :=
  (Nat.mul_le_mul hf hm).trans_lt (by decide)

theorem wideTier32?_eq {fl fr m : Nat} (hl : fl ≤ 256) (hr : fr ≤ 256) (hm : m ≤ 65536)
    (shift : Nat) : wideTier32? fl fr m shift = some (wideTier fl fr m shift) := by
  rw [wideTier32?, unsigned32?_of_eq (Int.natCast_mul fl m).symm (mul_lt hl hm),
    unsigned32?_of_eq (Int.natCast_mul fr m).symm (mul_lt hr hm)]
  rfl

theorem uniform32?_eq {f m : Nat} (hf : f ≤ 256) (hm : m ≤ 65536) (shift : Nat) :
    uniform32? f m shift = some (.uniform (f * m / shift)) := by
  rw [uniform32?, unsigned32?_of_eq (Int.natCast_mul f m).symm (mul_lt hf hm)]
  rfl

theorem shrink32?_eq {b : Box} (hy0 : 0 ≤ b.y0) (hy : b.y0 < b.y1) (hy1 : b.y1 ≤ maxInt32)
    (top bottom : CoverageTier) : shrink32? b top bottom = some (shrink b top bottom) := by
  have hmin : minInt32 ≤ 0 := by decide
  have hlo : (b.y0 + if top.inner = 0 then 1 else 0) = (shrink b top bottom).y0 := by
    unfold shrink
    dsimp only
    split_ifs <;> omega
  have hhi : (b.y1 - if bottom.inner = 0 then 1 else 0) = (shrink b top bottom).y1 := by
    unfold shrink
    dsimp only
    split_ifs <;> omega
  have hshrunk := shrink_rows b top bottom
  have hle := shrink_le b top bottom
  rw [shrink32?, hlo, hhi, word32?_of_range (by omega) (by omega),
    word32?_of_range (by omega) (by omega)]
  rfl

theorem stack32?_eq {h : Nat} (hh : h < 0x100000000) (top middle bottom : CoverageTier) :
    stack32? top middle bottom h = some (stack top middle bottom h) := by
  unfold stack32? stack
  by_cases htwo : 2 < h
  · rw [if_pos htwo, if_pos htwo, unsigned32?_of_eq (n := h - 2) (by omega) (by omega)]
    rfl
  · rw [if_neg htwo, if_neg htwo]
    rfl

theorem lastPart32?_eq {v : Int} (hv : 0 < v) (hmax : v ≤ maxInt32) :
    lastPart32? v = some (lastPart v) := by
  have hmin : minInt32 ≤ 0 := by decide
  have hpart : (((v - 1).toNat % 256 : Nat) : Int) + 1 = lastPart v := by
    unfold lastPart
    omega
  rw [lastPart32?, word32?_of_range (by omega) (by omega), Option.bind_eq_bind, Option.bind_some,
    unsigned32?_of_eq hpart ((lastPart_le v).trans_lt (by decide))]

section

variable {bounds : Box} {fx0 fx1 alpha topPart bottomPart h : Nat} (hy0 : 0 ≤ bounds.y0)
  (hy : bounds.y0 < bounds.y1) (hy1 : bounds.y1 ≤ maxInt32) (hfx1 : fx1 ≤ 256)
  (halpha : alpha ≤ 65536) (htop : topPart ≤ 65536) (hbottom : bottomPart ≤ 65536)
  (hh : h < 0x100000000)

include hy0 hy hy1 hfx1 halpha htop hbottom hh

theorem oneColumn32?_eq (hfx : fx0 ≤ fx1) :
    oneColumn32? bounds fx0 fx1 alpha topPart bottomPart h = some
      (let fx := fx1 - fx0
      let top := CoverageTier.uniform (fx * topPart / 65536)
      let middle := CoverageTier.uniform (fx * alpha / 256)
      let bottom := CoverageTier.uniform (fx * bottomPart / 65536)
      if h = 1 then if top.inner = 0 then none else some ⟨bounds, [top]⟩
      else
        let bounds := shrink bounds top bottom
        if bounds.y1 ≤ bounds.y0 ∨ middle.inner = 0 then none
        else some ⟨bounds, stack top middle bottom h⟩) := by
  have hpart : fx1 - fx0 ≤ 256 := (Nat.sub_le fx1 fx0).trans hfx1
  unfold oneColumn32?
  simp only [Option.bind_eq_bind]
  rw [unsigned32?_of_eq (n := fx1 - fx0) (by omega) (by omega), Option.bind_some,
    uniform32?_eq hpart htop, Option.bind_some]
  split
  · rfl
  · rw [uniform32?_eq hpart halpha, Option.bind_some, uniform32?_eq hpart hbottom,
      Option.bind_some, shrink32?_eq hy0 hy hy1, Option.bind_some, stack32?_eq hh, Option.map_some]
    exact (apply_ite some _ _ _).symm

theorem columns32?_eq (hfx : fx0 ≤ 256) :
    columns32? bounds fx0 fx1 alpha topPart bottomPart h = some
      (let top := wideTier (256 - fx0) fx1 topPart 256
      let middle := wideTier (256 - fx0) fx1 alpha 1
      let bottom := wideTier (256 - fx0) fx1 bottomPart 256
      let bounds := shrink bounds top bottom
      if bounds.y1 ≤ bounds.y0 then none
      else if h = 1 then some ⟨bounds, [top]⟩
      else some ⟨bounds, stack top middle bottom h⟩) := by
  have hpart : 256 - fx0 ≤ 256 := Nat.sub_le 256 fx0
  unfold columns32?
  simp only [Option.bind_eq_bind]
  rw [unsigned32?_of_eq (n := 256 - fx0) (by omega) (by omega), Option.bind_some,
    wideTier32?_eq hpart hfx1 htop, Option.bind_some, wideTier32?_eq hpart hfx1 halpha,
    Option.bind_some, wideTier32?_eq hpart hfx1 hbottom, Option.bind_some,
    shrink32?_eq hy0 hy hy1, Option.bind_some, stack32?_eq hh, Option.map_some]
  split_ifs <;> rfl

end

/-- With edges that are words, nothing leaves its word while a box is made. -/
theorem ofFixed32?_eq (alpha : Nat) (hx1 : x1 ≤ maxInt32) (hy1 : y1 ≤ maxInt32) :
    ofFixed32? alpha x0 y0 x1 y1 = some (ofFixed? alpha x0 y0 x1 y1) := by
  by_cases hvalid : x1 ≤ x0 ∨ y1 ≤ y0 ∨ x0 < 0 ∨ y0 < 0
  · rw [ofFixed32?, ofFixed?, if_pos hvalid, if_pos hvalid]
  · have hmax : maxInt32 = 2147483647 := rfl
    have hmin : minInt32 = -2147483648 := rfl
    have hfirst := firstPart_le y0 y1
    have hlast := lastPart_le y1
    have hpart (f : Nat) (hf : f ≤ 256) : f * min alpha 255 ≤ 65536 :=
      (Nat.mul_le_mul hf (Nat.min_le_right alpha 255)).trans (by decide)
    have hfy : (((if endCell y1 - firstCell y0 = 1 then lastPart y1 else 256 : Nat) : Int) -
        (y0.toNat % 256 : Nat)) = firstPart y0 y1 := by
      unfold firstPart lastPart endCell firstCell
      split_ifs <;> omega
    unfold ofFixed32?
    rw [if_neg hvalid]
    dsimp only [Option.bind_eq_bind]
    rw [unsigned32?_of_eq (n := x1.toNat + 255) (by omega) (by omega), Option.bind_some,
      unsigned32?_of_eq (n := y1.toNat + 255) (by omega) (by omega), Option.bind_some,
      lastPart32?_eq (by omega) hx1, Option.bind_some, lastPart32?_eq (by omega) hy1,
      Option.bind_some, unsigned32?_of_eq (n := endCell x1 - firstCell x0)
        (by unfold endCell firstCell; omega) (by unfold endCell firstCell; omega),
      Option.bind_some, unsigned32?_of_eq (n := endCell y1 - firstCell y0)
        (by unfold endCell firstCell; omega) (by unfold endCell firstCell; omega),
      Option.bind_some, unsigned32?_of_eq hfy (by omega), Option.bind_some,
      unsigned32?_of_eq (Int.natCast_mul _ _).symm (mul_lt hfirst (by omega)), Option.bind_some,
      unsigned32?_of_eq (Int.natCast_mul _ _).symm (mul_lt hlast (by omega)), Option.bind_some,
      word32?_of_range (by omega) (by omega), Option.bind_some,
      word32?_of_range (by omega) (by omega), Option.bind_some,
      word32?_of_range (by omega) (by omega), Option.bind_some,
      word32?_of_range (by omega) (by omega), Option.bind_some]
    have hrows : ((y0.toNat / 256 : Nat) : Int) < ((y1.toNat + 255) / 256 : Nat) := by omega
    have hbottom : (((y1.toNat + 255) / 256 : Nat) : Int) ≤ maxInt32 := by omega
    have hheight : endCell y1 - firstCell y0 < 0x100000000 := by
      unfold endCell firstCell
      omega
    unfold ofFixed?
    rw [if_neg hvalid]
    by_cases hw : endCell x1 - firstCell x0 = 1
    · rw [if_pos hw, oneColumn32?_eq (Int.natCast_nonneg _) hrows hbottom (lastPart_le x1)
        (by omega) (hpart _ hfirst) (hpart _ hlast) hheight
        (by unfold lastPart; unfold endCell firstCell at hw; omega)]
      exact congrArg some (if_pos hw).symm
    · rw [if_neg hw, columns32?_eq (Int.natCast_nonneg _) hrows hbottom (lastPart_le x1) (by omega)
        (hpart _ hfirst) (hpart _ hlast) hheight (by omega)]
      exact congrArg some (if_neg hw).symm

/-! ## Coverage -/

/-- The coverage of column `x` in a row of the tier. -/
def columnCoverage32? (bounds : Box) (x : Int) (t : CoverageTier) : Option Nat := do
  let i ← word32? (x - bounds.x0)
  let width ← word32? (bounds.x1 - bounds.x0)
  if i = 0 then some t.left
  else
    let next ← unsigned32? (i + 1)
    some (if next = width.toNat then t.right else t.inner)

def tierCoverage32? (bounds : Box) (x y : Int) : Int → List CoverageTier → Option Nat
  | _, [] => some 0
  | row, t :: rest => do
    let rows ← word32? t.rows
    let stop := addSat32 row rows
    if y < stop then columnCoverage32? bounds x t else tierCoverage32? bounds x y stop rest

/-- `coverageAt` in checked words. -/
def coverageAt32? (b : FractionalBox) (x y : Int) : Option Nat :=
  if b.bounds.Contains x y then tierCoverage32? b.bounds x y b.bounds.y0 b.tiers else some 0

theorem columnCoverage32?_eq {bounds : Box} {x : Int} (h0 : 0 ≤ bounds.x0)
    (h1 : bounds.x1 ≤ maxInt32) (hx : bounds.x0 ≤ x) (hx' : x < bounds.x1) (t : CoverageTier) :
    columnCoverage32? bounds x t = some (t.coverage (x - bounds.x0).toNat bounds.width) := by
  have hmax : maxInt32 = 2147483647 := rfl
  have hmin : minInt32 = -2147483648 := rfl
  have hwidth := Box.width_eq (b := bounds) (by omega) (by omega)
  rw [columnCoverage32?, word32?_of_range (by omega) (by omega), Option.bind_eq_bind,
    Option.bind_some, word32?_of_range (by omega) (by omega), Option.bind_eq_bind, Option.bind_some]
  unfold CoverageTier.coverage
  by_cases hi : x - bounds.x0 = 0
  · rw [if_pos hi, if_pos (by omega)]
  · rw [if_neg hi, if_neg (by omega),
      unsigned32?_of_eq (n := (x - bounds.x0).toNat + 1) (by omega) (by omega), Option.bind_some]
    exact congrArg some (if_congr (by omega) rfl rfl)

theorem tierCoverage32?_eq {bounds : Box} {x y row : Int} {tiers : List CoverageTier}
    (h0 : 0 ≤ bounds.x0) (h1 : bounds.x1 ≤ maxInt32) (hx : bounds.x0 ≤ x) (hx' : x < bounds.x1)
    (ht : ∀ t ∈ tiers, Short t) :
    tierCoverage32? bounds x y row tiers =
      some (tierCoverage y (x - bounds.x0).toNat bounds.width row tiers) := by
  induction tiers generalizing row with
  | nil => rfl
  | cons t rest ih =>
    have hmin : minInt32 ≤ 0 := by decide
    have hrows : wrap32 t.rows = t.rows :=
      wrap32_of_range (by omega) (ht t List.mem_cons_self)
    rw [tierCoverage32?, word32?_of_range (by omega) (ht t List.mem_cons_self),
      Option.bind_eq_bind, Option.bind_some, tierCoverage, CoverageTier.stopAfter, hrows]
    dsimp only
    split
    · exact columnCoverage32?_eq h0 h1 hx hx' t
    · exact ih fun t' ht' => ht t' (List.mem_cons_of_mem t ht')

/-- Nothing leaves its word while the coverage of a pixel is looked up. -/
theorem coverageAt32?_eq {b : FractionalBox} (h0 : 0 ≤ b.bounds.x0) (h1 : b.bounds.x1 ≤ maxInt32)
    (ht : ∀ t ∈ b.tiers, Short t) (x y : Int) : b.coverageAt32? x y = some (b.coverageAt x y) := by
  unfold coverageAt32? coverageAt
  split
  · rename_i hin
    exact tierCoverage32?_eq h0 h1 hin.1 hin.2.1 ht
  · rfl

/-- A box of the constructor covers of every pixel the exact part that lies between its edges, times
the alpha and rounded down, and where the constructor makes no box this is nothing. All that is
calculated on the way stays in 32-bit words. -/
theorem ofFixed?_exact (alpha : Nat) (hx0 : 0 ≤ x0) (hx : x0 < x1) (hx1 : x1 ≤ maxInt32)
    (hy0 : 0 ≤ y0) (hy : y0 < y1) (hy1 : y1 ≤ maxInt32) :
    (∀ b, ofFixed? alpha x0 y0 x1 y1 = some b → ∀ px py : Int, b.coverageAt px py =
      overlap x0 x1 px * overlap y0 y1 py * min alpha 255 / 65536) ∧
    (ofFixed? alpha x0 y0 x1 y1 = none → ∀ px py : Int,
      overlap x0 x1 px * overlap y0 y1 py * min alpha 255 / 65536 = 0) ∧
    ofFixed32? alpha x0 y0 x1 y1 = some (ofFixed? alpha x0 y0 x1 y1) ∧
    ∀ b, ofFixed? alpha x0 y0 x1 y1 = some b → ∀ px py : Int,
      b.coverageAt32? px py = some (b.coverageAt px py) := by
  refine ⟨fun b h => coverageAt_of_ofFixed? hx0 hx hx1 hy0 hy hy1 h,
    area_eq_zero_of_ofFixed? hx0 hx hy0 hy, ofFixed32?_eq alpha hx1 hy1, fun b h => ?_⟩
  obtain ⟨hleft, -⟩ := columns_of_ofFixed? h
  obtain ⟨htop, hright, hbottom⟩ := bounds_of_ofFixed? h
  obtain ⟨-, -, hrows⟩ := rows_of_ofFixed? h
  refine coverageAt32?_eq hleft (by omega) fun t ht => ?_
  have hle := hrows t ht
  unfold Short
  omega

/-- A box of two columns and three rows, a quarter of the pixel at its lower right corner. -/
theorem ofFixed?_exact_quarter :
    (0 : Int) ≤ 128 ∧ (384 : Int) ≤ maxInt32 ∧ (640 : Int) ≤ maxInt32 ∧
      ∃ b, ofFixed? 255 128 0 384 640 = some b ∧ b.coverageAt 1 2 = 63 := by
  refine ⟨by decide, by decide, by decide, _, rfl, ?_⟩
  exact (@ofFixed?_exact 128 0 384 640 255 (by decide) (by decide) (by decide) (by decide)
    (by decide) (by decide)).1 _ rfl 1 2

end FractionalBox

end Scanline
