import Scanline.Proofs.Fetch.Exact

/-
  Linear gradients. The exact position of a pixel names an entry of the table, which is the pixel
  itself, or is rounded with the value that the dither matrix has there.
  `GradientFetch.linear_shows_entries`: this is what a cursor reads, also where the position leaves
  its word in a table that starts again. The dither matrix starts again after 16 pixels, so the
  origin of the image counts modulo 16 where there is dithering, and nowhere else.
-/

namespace Scanline

/-- The exact position at column `x` of row `y`. -/
def LinearCourse.position (c : LinearCourse) (y x : Int) : Int := c.start + c.rowStep * y + c.step * x

/-- The pixel that is made of the entry at `i`, at column `x` of row `y` of the render target. -/
def GradientTable.entry? (table : GradientTable) (q : GradientQuality) (i : Nat) (y x : Int) :
    Option UInt32 :=
  match q with
  | .nearest => table.colors[i]?
  | .dither => (table.fineColors[i]?).map fun c => Dither.round c (Dither.valueAt x y)

/-- The pixel `p` is the entry at `i`, or that entry rounded with a value of the dither matrix. -/
def GradientTable.ShowsEntry (table : GradientTable) (q : GradientQuality) (i : Nat) (y x : Int)
    (p : UInt32) : Prop :=
  match q with
  | .nearest => table.colors[i]? = some p
  | .dither =>
    ∃ c d, table.fineColors[i]? = some c ∧
      Dither.matrix[(y % 16).toNat * 16 + (x % 16).toNat]? = some d ∧ p = Dither.round c d

namespace Dither

theorem matrix_length : matrix.length = 256 := by decide +kernel

theorem getElem?_matrix (x y : Int) :
    matrix[(y % 16).toNat * 16 + (x % 16).toNat]? = some (valueAt x y) := by
  have hx := Int.emod_lt_of_pos x (show (0 : Int) < 16 by decide)
  have hy := Int.emod_lt_of_pos y (show (0 : Int) < 16 by decide)
  have hlt : (y % 16).toNat * 16 + (x % 16).toNat < matrix.length := by
    rw [matrix_length]
    omega
  unfold valueAt
  rw [List.getD_eq_getElem?_getD, List.getElem?_eq_getElem hlt]
  rfl

/-- The matrix starts again after 16 pixels. -/
theorem valueAt_congr {x x' y y' : Int} (hx : x % 16 = x' % 16) (hy : y % 16 = y' % 16) :
    valueAt x y = valueAt x' y' := by
  unfold valueAt
  rw [hx, hy]

end Dither

/-- A table with an entry for every quality has its pixel. -/
theorem GradientTable.exists_entry? {table : GradientTable} {n : Nat}
    (hcolors : table.colors.size = n) (hfine : table.fineColors.size = n) {i : Nat} (hi : i < n)
    (q : GradientQuality) (y x : Int) :
    ∃ p, table.entry? q i y x = some p ∧ table.ShowsEntry q i y x p := by
  cases q with
  | nearest =>
    have hentry : table.colors[i]? = some table.colors[i] := Array.getElem?_eq_getElem _
    exact ⟨_, hentry, hentry⟩
  | dither =>
    have hentry : table.fineColors[i]? = some table.fineColors[i] := Array.getElem?_eq_getElem _
    refine ⟨_, ?_, _, _, hentry, Dither.getElem?_matrix x y, rfl⟩
    unfold entry?
    dsimp only
    rw [hentry]
    rfl

/-- Only dithering depends on the place, and on that modulo 16. -/
theorem GradientTable.entry?_congr {table : GradientTable} {q : GradientQuality} {i : Nat}
    {y x y' x' : Int} (h : q = .dither → x % 16 = x' % 16 ∧ y % 16 = y' % 16) :
    table.entry? q i y x = table.entry? q i y' x' := by
  cases q with
  | nearest => rfl
  | dither =>
    unfold entry?
    dsimp only
    rw [Dither.valueAt_congr (h rfl).1 (h rfl).2]

/-- A reader that was put on a row and started at a column reads the pixel of an entry. -/
theorem TableReader.next?_start (table : GradientTable) (q : GradientQuality) (origin : Int × Int)
    (i : Nat) (y x : Int) :
    ((((ofOrigin table (if q = .dither then some origin else none)).startRow y).start x).next?
      i).map Prod.fst = table.entry? q i (origin.2 + y) (origin.1 + x) := by
  cases q with
  | nearest =>
    change ((table.colors[i]?).map _).map Prod.fst = table.colors[i]?
    cases table.colors[i]? <;> rfl
  | dither =>
    change ((table.fineColors[i]?).map _).map Prod.fst = (table.fineColors[i]?).map _
    cases table.fineColors[i]? <;> rfl

theorem Cursor.next?_linear (c : LinearCursor) :
    (linear c).next?.map Prod.fst = (c.reader.next? (tableIndex c.folded c.course.maxIndex
      c.course.mirror (c.pos / 0x100000000))).map Prod.fst := by
  unfold next? LinearCursor.next?
  dsimp only
  cases c.reader.next? (tableIndex c.folded c.course.maxIndex c.course.mirror
    (c.pos / 0x100000000)) <;> rfl

/-- A cursor over a linear gradient reads at the exact position, wrapped once. -/
theorem Cursor.pixelAt?_linear (c : LinearCursor) (y x : Int) :
    (linear c).pixelAt? y x = (((c.reader.startRow y).start x).next?
      (tableIndex c.folded c.course.maxIndex c.course.mirror
        (wrap64 (c.course.position y x) / 0x100000000))).map Prod.fst := by
  unfold LinearCourse.position
  rw [← wrap64_add]
  exact next?_linear ((c.startRow y).start x)

namespace GradientFetch

/-- The cursor over a linear gradient of an image at `origin`. -/
def linearCursor (table : GradientTable) (course : LinearCourse) (e : Extend) (q : GradientQuality)
    (origin : Int × Int) : LinearCursor where
  reader := .ofOrigin table (if q = .dither then some origin else none)
  course := course
  folded := e ≠ .pad

variable {table : GradientTable} {n : Nat} {e : Extend} {course : LinearCourse}
  {q : GradientQuality}

theorem ofFetch?_linear (table : GradientTable) (course : LinearCourse) (e : Extend)
    (q : GradientQuality) (origin : Int × Int) :
    Cursor.ofFetch? (kindOf .linearPad .linearDitherPad q e) (.gradient ⟨table, .linear course⟩)
      origin = some (.linear (linearCursor table course e q origin)) := by
  obtain ⟨hkind, hcursor⟩ := Fetch.ofGradient?_linear table course e q origin
  exact (if_pos hkind).trans hcursor

/-- A cursor over a linear gradient reads the entry of the coordinate where its wrapped position
falls. -/
theorem pixelAt?_linearCursor {k : Nat} (hn : n = 2 ^ k) (hk : k < 32)
    (hcourse : (course.maxIndex, course.mirror) = indexRange e n) (origin : Int × Int) (y x : Int) :
    (Cursor.linear (linearCursor table course e q origin)).pixelAt? y x =
      table.entry? q (e.coordinate n (wrap64 (course.position y x) / 0x100000000)).toNat
        (origin.2 + y) (origin.1 + x) := by
  obtain ⟨hmax, hmirror⟩ := Prod.mk.inj (hcourse.trans Prod.mk.eta.symm)
  rw [Cursor.pixelAt?_linear, ← tableIndex_eq e hn hk, ← hmax, ← hmirror]
  exact TableReader.next?_start table q origin _ y x

/-- A linear gradient shows the entries where its wrapped positions fall. -/
theorem shows_wrapped (hcolors : table.colors.size = n) (hfine : table.fineColors.size = n) {k : Nat}
    (hn : n = 2 ^ k) (hk : k < 32) (hcourse : (course.maxIndex, course.mirror) = indexRange e n)
    (origin : Int × Int) :
    (Fetch.gradient ⟨table, .linear course⟩).Shows (kindOf .linearPad .linearDitherPad q e) origin
      Cursor.everywhere fun y x p =>
        let i := (e.coordinate n (wrap64 (course.position y x) / 0x100000000)).toNat
        table.entry? q i (origin.2 + y) (origin.1 + x) = some p ∧
          table.ShowsEntry q i (origin.2 + y) (origin.1 + x) p := by
  refine Fetch.shows_of_fresh (ofFetch?_linear table course e q origin) trivial fun y x _ => ?_
  obtain ⟨p, hp, hshows⟩ := GradientTable.exists_entry? hcolors hfine
    (e.toNat_coordinate_lt (hn ▸ Nat.two_pow_pos k)
      (wrap64 (course.position y x) / 0x100000000)) q (origin.2 + y) (origin.1 + x)
  exact ⟨p, (pixelAt?_linearCursor hn hk hcourse origin y x).trans hp, hp, hshows⟩

/-- A wrapped position falls where the exact one does, in a table that starts again or if the exact
one has not left its word. -/
theorem coordinate_wrapped {k : Nat} (hn : n = 2 ^ k) (hk : k < 32) {v : Int}
    (hv : e = .pad → minInt64 ≤ v ∧ v ≤ maxInt64) :
    e.coordinate n (wrap64 v / 0x100000000) = e.coordinate n (v / 0x100000000) := by
  by_cases he : e = .pad
  · rw [wrap64_of_range (hv he).1 (hv he).2]
  · exact Extend.coordinate_wrap64 he hn hk v

/-- What a linear gradient shows over a table with a power of two of entries: the entry where the
exact position falls by the extend rule, or that entry rounded with the dither matrix. Where the
edges of the table go on, the position may not leave its word. The origin of the image counts only
where there is dithering, and modulo 16. -/
theorem linear_shows_entries (hcolors : table.colors.size = n) (hfine : table.fineColors.size = n)
    (hn : n.isPowerOfTwo) (hn' : n ≤ 2 ^ 30)
    (hcourse : (course.maxIndex, course.mirror) = indexRange e n) (origin : Int × Int) :
    (Fetch.gradient ⟨table, .linear course⟩).Shows (kindOf .linearPad .linearDitherPad q e) origin
      Cursor.everywhere (fun y x p =>
        (e = .pad → minInt64 ≤ course.position y x ∧ course.position y x ≤ maxInt64) →
          table.ShowsEntry q (e.coordinate n (course.position y x / 0x100000000)).toNat
            (origin.2 + y) (origin.1 + x) p) ∧
    ∀ origin' : Int × Int,
      (q = .dither → origin.1 % 16 = origin'.1 % 16 ∧ origin.2 % 16 = origin'.2 % 16) →
      ∃ image : Int → Int → UInt32, ∀ o ∈ [origin, origin'],
        (Fetch.gradient ⟨table, .linear course⟩).Shows (kindOf .linearPad .linearDitherPad q e) o
          Cursor.everywhere fun y x p => p = image y x := by
  obtain ⟨k, hk⟩ := hn
  have hk' : k < 32 := by
    have := (Nat.pow_le_pow_iff_right (show 1 < 2 by decide)).mp (hk ▸ hn')
    omega
  have hshows (o : Int × Int) := shows_wrapped (q := q) hcolors hfine hk hk' hcourse o
  -- Both parts read off the same pixels, at the wrapped position.
  refine ⟨(hshows origin).imp fun y x p hp hv => ?_, fun origin' hsame => ?_⟩
  · rw [← coordinate_wrapped hk hk' hv]
    exact hp.2
  · refine ⟨fun y x => (table.entry? q
      (e.coordinate n (wrap64 (course.position y x) / 0x100000000)).toNat
        (origin.2 + y) (origin.1 + x)).getD 0, fun o ho => (hshows o).imp fun y x p hp => ?_⟩
    have hentry : q = .dither → (origin.1 + x) % 16 = (o.1 + x) % 16 ∧
        (origin.2 + y) % 16 = (o.2 + y) % 16 := by
      simp only [List.mem_cons, List.not_mem_nil, or_false] at ho
      rcases ho with rfl | rfl
      · exact fun _ => ⟨rfl, rfl⟩
      · exact fun hq => by have := hsame hq; omega
    dsimp only at hp ⊢
    rw [GradientTable.entry?_congr hentry, hp.1]
    rfl

/-- Two pixels before a table of two entries that is reflected, its second entry is rounded with the
second value of the matrix. -/
theorem linear_shows_entries_reflected :
    let table : GradientTable :=
      ⟨#[0xFF000000, 0xFF808080], #[⟨0, 0, 0, 65535⟩, ⟨32896, 32896, 32896, 65535⟩], .prgb32⟩
    let course : LinearCourse := { step := 2 ^ 32, maxIndex := 3, mirror := 3 }
    (Fetch.gradient ⟨table, .linear course⟩).Shows
      (kindOf .linearPad .linearDitherPad .dither .reflect) (3, 0) Cursor.everywhere
      fun y x p => (y = 0 → x = -2 → p = 0xFF818181) := by
  intro table course
  have hcolors : table.colors.size = 2 := rfl
  have hcourse : (course.maxIndex, course.mirror) = indexRange .reflect 2 := rfl
  refine (linear_shows_entries (q := .dither) hcolors rfl ⟨1, rfl⟩ (by decide) hcourse
    (3, 0)).1.imp ?_
  rintro _ _ p hp rfl rfl
  obtain ⟨c, d, hc, hd, rfl⟩ := hp nofun
  obtain rfl := Option.some.inj hc
  obtain rfl := Option.some.inj hd
  decide

end GradientFetch

end Scanline
