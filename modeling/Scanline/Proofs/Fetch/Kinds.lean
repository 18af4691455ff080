import Scanline.Proofs.Fetch.Steady
import Scanline.Proofs.Pattern.Axes
import Scanline.Proofs.Pattern.Walks

/-
  The cursors that do not remember their way: those over a single color, over a pattern and over a
  linear gradient. A walk that may leave its word, and a mapped position that may leave its range,
  bound the region in which this holds (`Cursor.region`).
-/

namespace Scanline

namespace Cursor

/-- Where coordinates moved by `tx` and `ty` fit the words. -/
def wordRegion (tx ty : Int) : Region where
  Row y := FitsWord (y + ty)
  Place y x := FitsWord (y + ty) ∧ FitsWord (x + tx)
  row_of_place h := h.1

/-- Where the exact positions of both axes are below `2^61`. -/
def positionRegion (s : Sampling) : Region where
  Row _ := True
  Place y x := (s.x.position y x).natAbs < 2 ^ 61 ∧ (s.y.position y x).natAbs < 2 ^ 61
  row_of_place _ := trivial

/-- Everywhere. -/
def everywhere : Region where
  Row _ := True
  Place _ _ := True
  row_of_place _ := trivial

/-- Where a cursor is exact. -/
def region : Cursor → Region
  | aligned c => wordRegion c.columns.tx c.rows.ty
  | bilinear c => wordRegion c.columns.tx c.rows.ty
  | mapped c => positionRegion c.sampling
  | _ => everywhere

theorem steady_solid (R : Region) (p : UInt32) : Steady R (solid p) where
  nextRow _ _ := rfl
  skip hd _ _ := by
    rw [← Option.some.inj hd]
    rfl
  next hd _ _ h := by
    obtain rfl := Option.some.inj hd
    rw [← (Prod.mk.inj (Option.some.inj h)).2]
    rfl

theorem steady_aligned {c : AlignedCursor} (hcolumns : c.columns.Sound) (hrows : c.rows.Sound) :
    Steady (region (aligned c)) (aligned c) where
  nextRow {y} hy hy' := by
    change aligned { c with rows := (c.rows.start y).next } = aligned { c with rows := _ }
    rw [hrows.next_start hy hy']
  skip hd _ _ := by
    rw [← Option.some.inj hd]
    rfl
  next {d d' y x p} hd hx hx' h := by
    obtain rfl := Option.some.inj hd
    obtain ⟨⟨_, e⟩, he, heq⟩ := Option.map_eq_some_iff.mp h
    obtain ⟨_, _, he⟩ := Option.bind_eq_some_iff.mp he
    rw [← (Prod.mk.inj heq).2, ← (Prod.mk.inj (Option.some.inj he)).2]
    change some (aligned ⟨c.source, c.columns.start (x + 1), c.rows.start y⟩) =
      some (aligned ⟨c.source, (c.columns.start x).next, c.rows.start y⟩)
    rw [hcolumns.next_start hx.2 hx'.2]

theorem steady_bilinear {c : BilinearCursor} (hcolumns : c.columns.Sound) (hrows : c.rows.Sound) :
    Steady (region (bilinear c)) (bilinear c) where
  nextRow {y} hy hy' := by
    change bilinear { c with rows := (c.rows.start y).next } = bilinear { c with rows := _ }
    rw [hrows.next_start hy hy']
  skip {d y x n} hd _ _ := by
    obtain ⟨e, he, rfl⟩ := Option.map_eq_some_iff.mp hd
    obtain ⟨left, rfl⟩ := bilinear_start? he
    rfl
  next {d d' y x p} hd hx hx' h := by
    obtain ⟨e, he, rfl⟩ := Option.map_eq_some_iff.mp hd
    obtain ⟨left, rfl⟩ := bilinear_start? he
    obtain ⟨⟨_, f⟩, hf, heq⟩ := Option.map_eq_some_iff.mp h
    obtain ⟨_, _, hf⟩ := Option.bind_eq_some_iff.mp hf
    obtain ⟨left', hleft', hf⟩ := Option.bind_eq_some_iff.mp hf
    rw [← (Prod.mk.inj heq).2, ← (Prod.mk.inj (Option.some.inj hf)).2]
    have hcolumn : (c.columns.start x).next = c.columns.start (x + 1) :=
      hcolumns.next_start hx.2 hx'.2
    change (c.startRow y).weigh? (c.columns.start x).next.index c.weights.a c.weights.c =
      some left' at hleft'
    change (((c.startRow y).weigh? (c.columns.start (x + 1)).index c.weights.a c.weights.c).bind
      fun left => some { c.startRow y with columns := c.columns.start (x + 1), left := left }).map
        bilinear = some (bilinear
          { c.startRow y with columns := (c.columns.start x).next, left := left' })
    rw [← hcolumn, hleft']
    rfl

/-- The cursor over a mapped pattern with its row and its positions given. -/
def mappedAt (c : MappedCursor) (y vx vy : Int) : MappedCursor :=
  { c with
    rowX := wrap64 (c.sampling.x.start + c.sampling.x.rowStep * y)
    rowY := wrap64 (c.sampling.y.start + c.sampling.y.rowStep * y)
    posX := c.sampling.x.normalize vx
    posY := c.sampling.y.normalize vy }

theorem fresh?_mapped {c : MappedCursor} {y x : Int} (h : (region (mapped c)).Place y x) :
    (mapped c).fresh? y x =
      some (mapped (mappedAt c y (c.sampling.x.position y x) (c.sampling.y.position y x))) := by
  unfold mappedAt
  rw [← c.sampling.x.wrap64_position h.1, ← c.sampling.y.wrap64_position h.2]
  rfl

theorem steady_mapped {c : MappedCursor} (hx : c.sampling.x.Sound) (hy : c.sampling.y.Sound) :
    Steady (region (mapped c)) (mapped c) where
  nextRow {y} _ _ := by
    exact congrArg₂ (fun rowX rowY => mapped { c with rowX := rowX, rowY := rowY })
      (wrap64_walk_one _ _ y) (wrap64_walk_one _ _ y)
  skip {d y x n} hd hplace hplace' := by
    rw [fresh?_mapped hplace] at hd
    rw [fresh?_mapped hplace', ← Option.some.inj hd, SampleAxis.position_add,
      SampleAxis.position_add]
    have hnormX := hx.normalize_skip hplace.1
      (by rw [← SampleAxis.position_add]; exact hplace'.1)
    have hnormY := hy.normalize_skip hplace.2
      (by rw [← SampleAxis.position_add]; exact hplace'.2)
    unfold mappedAt
    rw [← hnormX, ← hnormY]
    rfl
  next {d d' y x p} hd hplace hplace' h := by
    rw [fresh?_mapped hplace] at hd
    obtain rfl := Option.some.inj hd
    obtain ⟨⟨_, e⟩, he, heq⟩ := Option.map_eq_some_iff.mp h
    obtain ⟨_, _, he⟩ := Option.bind_eq_some_iff.mp he
    rw [← (Prod.mk.inj heq).2, ← (Prod.mk.inj (Option.some.inj he)).2, fresh?_mapped hplace',
      SampleAxis.position_succ, SampleAxis.position_succ]
    have hadvanceX := hx.advance_normalize hplace.1
      (by rw [← SampleAxis.position_succ]; exact hplace'.1)
    have hadvanceY := hy.advance_normalize hplace.2
      (by rw [← SampleAxis.position_succ]; exact hplace'.2)
    unfold mappedAt
    rw [← hadvanceX, ← hadvanceY]

theorem reader_startRow_nextRow (r : TableReader) (y : Int) :
    (r.startRow y).nextRow = r.startRow (y + 1) := by
  obtain ⟨table, dither⟩ := r
  cases dither with
  | none => rfl
  | some d => simp only [TableReader.startRow, TableReader.nextRow, Option.map_some, Int.add_assoc]

/-- A pixel that is read moves the dither matrix on by one. -/
theorem reader_start_next? {r r' : TableReader} {x : Int} {i : Nat} {p : UInt32}
    (h : (r.start x).next? i = some (p, r')) : r' = r.start (x + 1) := by
  obtain ⟨table, dither⟩ := r
  cases dither with
  | none =>
    obtain ⟨_, _, heq⟩ := Option.map_eq_some_iff.mp h
    exact (Prod.mk.inj heq).2.symm
  | some d =>
    obtain ⟨_, _, heq⟩ := Option.map_eq_some_iff.mp h
    rw [← (Prod.mk.inj heq).2]
    simp only [TableReader.start, Option.map_some, Int.add_assoc]

/-- The position of a linear gradient is exact in its word, however it was reached. -/
theorem steady_linear (c : LinearCursor) : Steady (region (linear c)) (linear c) where
  nextRow {y} _ _ := by
    exact congrArg₂ (fun row reader => linear { c with row := row, reader := reader })
      (wrap64_walk_one _ _ y) (reader_startRow_nextRow c.reader y)
  skip {d y x n} hd _ _ := by
    rw [← Option.some.inj hd]
    exact congrArg₂
      (fun pos reader => some (linear { c.startRow y with pos := pos, reader := reader }))
      (wrap64_walk _ _ x n) (reader_start_start (c.reader.startRow y) x (x + n))
  next {d d' y x p} hd _ _ h := by
    obtain rfl := Option.some.inj hd
    obtain ⟨⟨_, e⟩, he, heq⟩ := Option.map_eq_some_iff.mp h
    obtain ⟨⟨_, r⟩, hr, he⟩ := Option.bind_eq_some_iff.mp he
    rw [← (Prod.mk.inj heq).2, ← (Prod.mk.inj (Option.some.inj he)).2]
    exact congrArg₂
      (fun pos reader => some (linear { c.startRow y with pos := pos, reader := reader }))
      (wrap64_walk_one _ _ x).symm (reader_start_next? hr).symm

/-- A cursor as it is made from a fetch that lies in the ranges: of a source that is not empty, with
sound walks or axes. -/
def Sound : Cursor → Prop
  | solid _ => True
  | aligned c =>
    c.columns.Sound ∧ c.rows.Sound ∧ c.columns.width = c.source.width ∧
      c.rows.height = c.source.height
  | bilinear c =>
    c.columns.Sound ∧ c.rows.Sound ∧ c.columns.width = c.source.width ∧
      c.rows.height = c.source.height
  | mapped c =>
    c.sampling.x.Sound ∧ c.sampling.y.Sound ∧ 0 < c.source.width ∧ 0 < c.source.height
  | linear _ => True
  | _ => False

theorem Sound.steady {c : Cursor} (h : c.Sound) : Steady c.region c := by
  cases c with
  | solid p => exact steady_solid _ p
  | aligned c => exact steady_aligned h.1 h.2.1
  | bilinear c => exact steady_bilinear h.1 h.2.1
  | mapped c => exact steady_mapped h.1 h.2.1
  | linear c => exact steady_linear c
  | radial c => exact h.elim
  | conic c => exact h.elim

end Cursor

end Scanline
