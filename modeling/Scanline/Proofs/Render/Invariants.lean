import Mathlib.Tactic.Linarith
import Scanline.Render.BoxFill
import Scanline.Render.MaskFill

/-
  Invariants of strokes. A property of strokes is kept (`Stroke.Kept`) when the movements of a
  stroke keep it: going to a row, starting in it, passing over pixels, and drawing a pixel that the
  fill may touch. Whatever a fill is made of is then kept as well: spans, rows, boxes and groups of
  mask commands.

  A property of surfaces and one of cursors (`Cursor.Kept`) make up a property of strokes
  (`Stroke.kept_of_cursor`).

  `Lands` says of an outcome that may be missing what it is like. It has the case of the missing
  outcome as a parameter, so that the same lemmas serve to show what drawing leads to if it ends
  well, and that it ends well.
-/

namespace Scanline

/-- An outcome has a property; a missing one is as `halts` says. -/
def Lands {α : Type} (halts : Prop) (P : α → Prop) : Option α → Prop
  | none => halts
  | some a => P a

namespace Lands

variable {α β : Type} {halts : Prop} {P P' : α → Prop} {Q : β → Prop} {o : Option α}

theorem mono (h : Lands halts P o) (hP : ∀ a, P a → P' a) : Lands halts P' o := by
  cases o with
  | none => exact h
  | some a => exact hP a h

theorem bind {f : α → Option β} (h : Lands halts P o) (hf : ∀ a, P a → Lands halts Q (f a)) :
    Lands halts Q (o >>= f) := by
  cases o with
  | none => exact h
  | some a => exact hf a h

theorem map {f : α → β} (h : Lands halts P o) (hf : ∀ a, P a → Q (f a)) :
    Lands halts Q (o.map f) := by
  cases o with
  | none => exact h
  | some a => exact hf a h

theorem of_eq_some {a : α} (h : Lands halts P o) (ho : o = some a) : P a := by
  subst ho
  exact h

/-- An outcome that may be missing has the property if it does where it is there. -/
theorem of_forall (h : ∀ a, o = some a → P a) : Lands True P o := by
  cases o with
  | none => trivial
  | some a => exact h a rfl

/-- Nothing is asked of an outcome that may be missing. -/
theorem of_true (o : Option α) : Lands True (fun _ => True) o := of_forall fun _ _ => trivial

theorem isSome (h : Lands halts P o) (hf : ¬ halts) : o.isSome := by
  cases o with
  | none => exact absurd h hf
  | some a => rfl

/-- An outcome that must not be missing is there. -/
theorem exists_eq_some (h : Lands False P o) : ∃ a, o = some a ∧ P a := by
  cases o with
  | none => exact h.elim
  | some a => exact ⟨a, rfl, h⟩

end Lands

/-- The movements of a cursor keep the property `C`, and the pixels that it reads have the property
`R`. -/
structure Cursor.Kept (halts : Prop) (R : UInt32 → Prop) (C : Cursor → Prop) : Prop where
  startRow : ∀ c y, C c → C (c.startRow y)
  nextRow : ∀ c, C c → C c.nextRow
  start? : ∀ c x, C c → Lands halts C (c.start? x)
  skip? : ∀ c x n, C c → Lands halts C (c.skip? x n)
  next? : ∀ c, C c → Lands halts (fun out => R out.1 ∧ C out.2) c.next?

theorem Cursor.kept_true : Cursor.Kept True (fun _ => True) fun _ => True where
  startRow _ _ _ := trivial
  nextRow _ _ := trivial
  start? _ _ _ := .of_true _
  skip? _ _ _ _ := .of_true _
  next? _ _ := (Lands.of_true _).mono fun _ _ => ⟨trivial, trivial⟩

namespace Stroke

/-- The movements of a stroke keep the property `I`, on surfaces of `width` columns. A pixel is
drawn where `touches` allows its row, its column and the coverage. -/
structure Kept (halts : Prop) (width : Nat) (touches : Int → Nat → Nat → Prop)
    (I : Stroke → Prop) : Prop where
  width_eq : ∀ s, I s → s.surface.width = width
  startRow : ∀ s y, I s → I (s.startRow y)
  nextRow : ∀ s, I s → I s.nextRow
  start? : ∀ s x, I s → Lands halts I (s.start? x)
  skip? : ∀ s x n, I s → Lands halts I (s.skip? x n)
  dab? : ∀ s y x m, I s → touches y x m → Lands halts I (s.dab? y x m)

namespace Kept

variable {halts : Prop} {width : Nat} {touches touches' : Int → Nat → Nat → Prop}
  {I : Stroke → Prop} {s : Stroke} {y : Int} {x m : Nat}

theorem mono (hI : Kept halts width touches I) (h : ∀ y x m, touches' y x m → touches y x m) :
    Kept halts width touches' I :=
  ⟨hI.width_eq, hI.startRow, hI.nextRow, hI.start?, hI.skip?,
    fun s y x m hs ht => hI.dab? s y x m hs (h y x m ht)⟩

theorem dabs? (hI : Kept halts width touches I) (n : Nat) (hs : I s)
    (ht : ∀ z, x ≤ z → z < x + n → touches y z m) : Lands halts I (s.dabs? y x m n) := by
  induction n generalizing s x with
  | zero => exact hs
  | succ n ih =>
    refine (hI.dab? s y x m hs (ht x le_rfl (by omega))).bind fun t ht' => ?_
    exact ih ht' fun z hz hz' => ht z (by omega) (by omega)

theorem span? (hI : Kept halts width touches I) {x0 x1 : Nat} (hs : I s)
    (ht : ∀ z, x0 ≤ z → z < x1 → touches y z m) : Lands halts I (s.span? y x0 x1 m) := by
  rw [Stroke.span?_eq]
  split_ifs with hle hm
  · exact hs
  · exact hI.skip? s x1 _ hs
  · exact hI.dabs? _ hs fun z hz hz' => ht z hz (by omega)

theorem varied? (hI : Kept halts width touches I) (ms : List Nat) (hs : I s)
    (ht : ∀ m ∈ ms, ∀ z, x ≤ z → z < x + ms.length → touches y z m) :
    Lands halts I (s.varied? y x ms) := by
  induction ms generalizing s x with
  | nil => exact hs
  | cons m ms ih =>
    have hlen : (m :: ms).length = ms.length + 1 := rfl
    refine (hI.dab? s y x m hs (ht m (by simp) x le_rfl (by omega))).bind fun t ht' => ?_
    exact ih ht' fun m' hm' z hz hz' => ht m' (by simp [hm']) z (by omega) (by omega)

end Kept

/-- A stroke keeps what its cursor keeps, and what drawing a pixel of the cursor keeps. -/
theorem kept_of_cursor {halts : Prop} {width : Nat} {touches : Int → Nat → Nat → Prop}
    {R : UInt32 → Prop} {C : Cursor → Prop} {S : Surface → Prop} {op : Operator}
    (hC : Cursor.Kept halts R C) (hwidth : ∀ s, S s → s.width = width)
    (hdraw : ∀ s y x p m, S s → R p → touches y x m → Lands halts S (s.draw? op x y p m)) :
    Kept halts width touches fun s => s.op = op ∧ S s.surface ∧ C s.cursor where
  width_eq s hs := hwidth _ hs.2.1
  startRow s y hs := ⟨hs.1, hs.2.1, hC.startRow _ y hs.2.2⟩
  nextRow s hs := ⟨hs.1, hs.2.1, hC.nextRow _ hs.2.2⟩
  start? s x hs := (hC.start? _ x hs.2.2).bind fun c hc => ⟨hs.1, hs.2.1, hc⟩
  skip? s x n hs := (hC.skip? _ x n hs.2.2).bind fun c hc => ⟨hs.1, hs.2.1, hc⟩
  dab? s y x m hs ht := by
    obtain ⟨rfl, hsurface, hcursor⟩ := hs
    refine (hC.next? _ hcursor).bind fun out hout => ?_
    exact (hdraw _ y x out.1 m hsurface hout.1 ht).bind fun t ht => ⟨rfl, ht, hout.2⟩

end Stroke

open Stroke

variable {halts : Prop} {width : Nat} {touches : Int → Nat → Nat → Prop} {I : Stroke → Prop}
  {s : Stroke} {y : Int}

/-! ## Boxes -/

namespace AlignedBox

/-- The pixels that the box may touch. -/
def Touches (b : AlignedBox) (y : Int) (x m : Nat) : Prop := b.bounds.Contains x y ∧ m = b.alpha

theorem drawRows?_kept (b : AlignedBox) (hI : Kept halts width touches I) (n : Nat) (hs : I s)
    (ht : ∀ y' x, y ≤ y' → y' < y + n → b.bounds.x0.toNat ≤ x → x < b.bounds.x1.toNat →
      touches y' x b.alpha) : Lands halts I (b.drawRows? s y n) := by
  induction n generalizing s y with
  | zero => exact hs
  | succ n ih =>
    refine (hI.start? s b.bounds.x0 hs).bind fun t ht' => ?_
    refine (hI.span? ht' fun x hx hx' => ht y x le_rfl (by omega) hx hx').bind fun u hu => ?_
    exact ih (hI.nextRow u hu) fun y' x hy hy' => ht y' x (by omega) (by omega)

theorem draw?_kept (b : AlignedBox) (hI : Kept halts width b.Touches I) (hs : I s) :
    Lands halts I (b.draw? s) := by
  refine b.drawRows?_kept hI _ (hI.startRow s _ hs) fun y' x hy hy' hx hx' => ⟨?_, rfl⟩
  unfold Box.Contains
  omega

end AlignedBox

/-- A coverage of the tier. -/
def CoverageTier.Has (t : CoverageTier) (m : Nat) : Prop := m = t.left ∨ m = t.inner ∨ m = t.right

namespace FractionalBox

/-- The pixels that the box may touch. -/
def Touches (b : FractionalBox) (y : Int) (x m : Nat) : Prop :=
  b.bounds.Contains x y ∧ ∃ t ∈ b.tiers, t.Has m

/-- The columns of the box are in order and are not left of the first one. -/
structure Upright (b : FractionalBox) : Prop where
  x0_nonneg : 0 ≤ b.bounds.x0
  x0_lt : b.bounds.x0 < b.bounds.x1
  x1_le : b.bounds.x1 ≤ maxInt32

variable {x0 x1 : Nat} {t : CoverageTier}

theorem drawRow?_kept (hI : Kept halts width touches I) (hx : x0 < x1) (hs : I s)
    (ht : ∀ x m, x0 ≤ x → x < x1 → t.Has m → touches y x m) :
    Lands halts I (drawRow? t x0 x1 s y) := by
  refine (hI.start? s x0 hs).bind fun s hs => ?_
  refine (hI.dab? s y x0 t.left hs (ht _ _ le_rfl hx (.inl rfl))).bind fun s hs => ?_
  -- the right column and the inner ones are drawn in two steps, either of which may be left out
  have hright (s : Stroke) (hs : I s) : Lands halts I
      (if 1 < x1 - x0 then s.dab? y (x1 - 1) t.right >>= fun s => some s.nextRow
        else some s.nextRow) := by
    split
    · refine (hI.dab? s y _ _ hs (ht _ _ (by omega) (by omega) (.inr (.inr rfl)))).bind ?_
      exact hI.nextRow
    · exact hI.nextRow s hs
  dsimp only
  split
  · refine (hI.span? hs fun z hz hz' => ?_).bind hright
    exact ht z _ (by omega) (by omega) (.inr (.inl rfl))
  · exact hright s hs

theorem drawRows?_kept (hI : Kept halts width touches I) (hx : x0 < x1) (n : Nat) (hs : I s)
    (ht : ∀ y' x m, y ≤ y' → y' < y + n → x0 ≤ x → x < x1 → t.Has m → touches y' x m) :
    Lands halts I (drawRows? t x0 x1 s y n) := by
  induction n generalizing s y with
  | zero => exact hs
  | succ n ih =>
    have hrow := drawRow?_kept hI hx hs fun x m => ht y x m le_rfl (by omega)
    exact hrow.bind fun s hs => ih hs fun y' x m hy hy' => ht y' x m (by omega) (by omega)

theorem drawTiers?_kept (hI : Kept halts width touches I) (hx : x0 < x1) {stop : Int}
    (tiers : List CoverageTier) (hs : I s)
    (ht : ∀ t ∈ tiers, ∀ y' x m, y ≤ y' → y' < stop → x0 ≤ x → x < x1 → t.Has m →
      touches y' x m) : Lands halts I (drawTiers? x0 x1 stop s y tiers) := by
  induction tiers generalizing s y with
  | nil => exact hs
  | cons t tiers ih =>
    have hrows := drawRows?_kept (y := y) hI hx (min t.rows (stop - y).toNat) hs
      fun y' x m hy hy' => ht t (by simp) y' x m hy (by omega)
    refine hrows.bind fun s hs => ih hs fun t' ht' y' x m hy hy' => ?_
    exact ht t' (by simp [ht']) y' x m (by omega) hy'

theorem edgeIndex_eq {x : Int} (hx : 0 ≤ x) (hx' : x ≤ maxInt32) : edgeIndex x = x.toNat := by
  unfold maxInt32 at hx'
  unfold edgeIndex
  omega

theorem draw?_kept {b : FractionalBox} (hb : b.Upright) (hI : Kept halts width b.Touches I)
    (hs : I s) : Lands halts I (b.draw? s) := by
  obtain ⟨h0, hlt, h1⟩ := hb
  unfold draw?
  rw [edgeIndex_eq h0 (hlt.le.trans h1), edgeIndex_eq (h0.trans hlt.le) h1, if_neg (by omega)]
  refine drawTiers?_kept hI (by omega) b.tiers (hI.startRow s _ hs) ?_
  intro t ht y' x m hy hy' hx hx' hm
  refine ⟨?_, t, ht, hm⟩
  unfold Box.Contains
  omega

end FractionalBox

/-! ## Mask commands -/

namespace MaskCommand

/-- A coverage that a command can give in a fill of coverage `alpha`. -/
def Has (alpha : Nat) (c : MaskCommand) (m : Nat) : Prop :=
  match c with
  | marker _ => False
  | constant _ _ mask => m = mask
  | varying _ _ data _ scaled => ∃ v ∈ data, m = if scaled then v.toNat else mul255 v.toNat alpha

/-- The columns of a command that lie left of `width`, with the coverage that it can give there. -/
def Touches (width alpha : Nat) (c : MaskCommand) (x m : Nat) : Prop :=
  (∃ x0 x1, c.clippedSpan? width = some (x0, x1) ∧ x0 ≤ x ∧ x < x1) ∧ c.Has alpha m

/-- A command that has coverage for a row reads no byte behind its data. -/
theorem coverages?_of_hasRow {width k x0 x1 a b advance : Nat} {data : Array UInt8} {scaled : Bool}
    (h : hasRow width k (varying x0 x1 data advance scaled))
    (hspan : (varying x0 x1 data advance scaled).clippedSpan? width = some (a, b)) (alpha : Nat) :
    ∃ ms, coverages? alpha k (b - a) data advance scaled = some ms := by
  simp only [hasRow, hspan, decide_eq_true_eq] at h
  exact ⟨_, if_pos h⟩

theorem length_coverages {alpha k length : Nat} {data : Array UInt8} {advance : Nat}
    {scaled : Bool} {ms : List Nat}
    (h : coverages? alpha k length data advance scaled = some ms) : ms.length = length := by
  unfold coverages? at h
  split at h
  · rw [← Option.some.inj h, List.length_map, Array.length_toList, Array.size_extract]
    omega
  · cases h

theorem mem_coverages {alpha k length m : Nat} {data : Array UInt8} {advance : Nat} {scaled : Bool}
    {ms : List Nat} (h : coverages? alpha k length data advance scaled = some ms) (hm : m ∈ ms) :
    ∃ v ∈ data, m = if scaled then v.toNat else mul255 v.toNat alpha := by
  unfold coverages? at h
  split at h
  · rw [← Option.some.inj h] at hm
    obtain ⟨v, hv, rfl⟩ := List.mem_map.mp hm
    rw [Array.mem_toList_iff, Array.mem_iff_getElem?] at hv
    obtain ⟨i, hi⟩ := hv
    rw [Array.getElem?_extract] at hi
    split at hi
    · exact ⟨v, Array.mem_of_getElem? hi, rfl⟩
    · cases hi
  · cases h

theorem moveTo?_kept (hI : Kept halts width touches I) (hs : I s) (stand? : Option Nat) (x0 : Nat) :
    Lands halts I (moveTo? s stand? x0) := by
  unfold moveTo?
  split
  · split_ifs
    · exact hs
    · exact hI.skip? s _ _ hs
    · exact hI.start? s _ hs
  · exact hI.start? s _ hs

theorem draw?_kept {c : MaskCommand} {alpha k x0 x1 : Nat} (hI : Kept halts width touches I)
    (hs : I s) (hrow : hasRow width k c) (hspan : c.clippedSpan? width = some (x0, x1))
    (ht : ∀ x m, x0 ≤ x → x < x1 → c.Has alpha m → touches y x m) :
    Lands halts I (c.draw? alpha k y s x0 x1) := by
  cases c with
  | marker count => exact hs
  | constant a b mask => exact hI.span? hs fun z hz hz' => ht z mask hz hz' rfl
  | varying a b data advance scaled =>
    obtain ⟨ms, hms⟩ := coverages?_of_hasRow hrow hspan alpha
    have hlen := length_coverages hms
    rw [draw?, hms]
    exact hI.varied? ms hs fun m hm z hz hz' => ht z m hz (by omega) (mem_coverages hms hm)

theorem drawSpans?_kept (hI : Kept halts width touches I) {alpha k : Nat}
    (spans : List MaskCommand) (stand? : Option Nat) (hs : I s)
    (hrow : ∀ c ∈ spans, hasRow width k c)
    (ht : ∀ c ∈ spans, ∀ x m, c.Touches width alpha x m → touches y x m) :
    Lands halts I (drawSpans? alpha k y s stand? spans) := by
  induction spans generalizing s stand? with
  | nil => exact hs
  | cons c rest ih =>
    have hrows : ∀ c ∈ rest, hasRow width k c := fun c' hc' => hrow c' (by simp [hc'])
    have hrest : ∀ c ∈ rest, ∀ x m, c.Touches width alpha x m → touches y x m :=
      fun c' hc' => ht c' (by simp [hc'])
    rw [drawSpans?, hI.width_eq s hs]
    split
    · exact ih stand? hs hrows hrest
    · rename_i x0 x1 hspan
      refine (moveTo?_kept hI hs stand? x0).bind fun s hs => ?_
      have hdraw : Lands halts I (c.draw? alpha k y s x0 x1) :=
        draw?_kept hI hs (hrow c (by simp)) hspan fun x m hx hx' hm =>
          ht c (by simp) x m ⟨⟨x0, x1, hspan, hx, hx'⟩, hm⟩
      exact hdraw.bind fun s hs => ih (some x1) hs hrows hrest

/-- A command that goes before the groups of the rest is the first of the first of them, or a group
of its own. -/
theorem mem_joined {c : MaskCommand} {spans : List MaskCommand} {count : Nat}
    {gs : List (List MaskCommand × Nat)}
    (h : (spans, count) ∈ match gs with
      | [] => [([c], 1)]
      | (tail, count) :: later => (c :: tail, count) :: later) :
    (spans, count) ∈ gs ∨ ∃ tail, spans = c :: tail ∧ (tail = [] ∨ (tail, count) ∈ gs) := by
  cases gs with
  | nil =>
    obtain ⟨rfl, -⟩ := Prod.mk.inj (List.mem_singleton.mp h)
    exact .inr ⟨[], rfl, .inl rfl⟩
  | cons g later =>
    obtain ⟨tail, n⟩ := g
    obtain heq | hlater := List.mem_cons.mp h
    · obtain ⟨rfl, rfl⟩ := Prod.mk.inj heq
      exact .inr ⟨tail, rfl, .inr List.mem_cons_self⟩
    · exact .inl (List.mem_cons_of_mem _ hlater)

/-- A group begins with the first command, or it comes from the commands after that. -/
theorem mem_groups_cons {c : MaskCommand} {rest spans : List MaskCommand} {count : Nat}
    (h : (spans, count) ∈ groups (c :: rest)) :
    spans = [] ∨ (spans, count) ∈ groups rest ∨
      ∃ tail, spans = c :: tail ∧ (tail = [] ∨ (tail, count) ∈ groups rest) := by
  cases c with
  | marker n =>
    obtain heq | hlater := List.mem_cons.mp h
    · exact .inl (Prod.mk.inj heq).1
    · exact .inr (.inl hlater)
  | constant a b mask => exact .inr (mem_joined h)
  | varying a b data advance scaled => exact .inr (mem_joined h)

/-- Grouping adds no commands. -/
theorem mem_of_mem_groups {commands spans : List MaskCommand} {count : Nat} {c : MaskCommand}
    (h : (spans, count) ∈ groups commands) (hc : c ∈ spans) : c ∈ commands := by
  induction commands generalizing spans with
  | nil => cases h
  | cons d rest ih =>
    obtain rfl | hrest | ⟨tail, rfl, htail⟩ := mem_groups_cons h
    · cases hc
    · exact List.mem_cons_of_mem _ (ih hrest hc)
    · obtain rfl | hc := List.mem_cons.mp hc
      · exact List.mem_cons_self
      · obtain rfl | htail := htail
        · cases hc
        · exact List.mem_cons_of_mem _ (ih htail hc)

end MaskCommand

namespace MaskFill
open MaskCommand

/-- The pixels that the fill may touch on a surface of `width` columns. -/
def Touches (f : MaskFill) (width : Nat) (y : Int) (x m : Nat) : Prop :=
  (f.bounds.y0 ≤ y ∧ y < f.bounds.y1) ∧ ∃ c ∈ f.commands, c.Touches width f.alpha x m

/-- A group draws some of the rows that are left. -/
theorem drawGroup?_kept (hI : Kept halts width touches I) {alpha : Nat}
    {spans : List MaskCommand} {limit : Option Nat} {stop : Int} {k : Nat} (left : Nat) (hs : I s)
    (ht : ∀ c ∈ spans, ∀ y x m, stop - left ≤ y → y < stop → c.Touches width alpha x m →
      touches y x m) :
    Lands halts (fun out => I out.1 ∧ out.2 ≤ left)
      (drawGroup? alpha spans limit stop s k left) := by
  induction left generalizing s k with
  | zero => exact ⟨hs, le_rfl⟩
  | succ left ih =>
    rw [drawGroup?, hI.width_eq s hs]
    split
    · rename_i hrow
      have hspans : Lands halts I
          (drawSpans? alpha k (stop - (left + 1 : Nat)) s none spans) :=
        drawSpans?_kept hI spans none hs (List.all_eq_true.mp hrow) fun c hc x m =>
          ht c hc _ x m le_rfl (by omega)
      refine hspans.bind fun s hs => ?_
      split
      · exact ⟨hI.nextRow s hs, Nat.le_succ left⟩
      · have hrest := ih (k := k + 1) (hI.nextRow s hs) fun c hc y x m hy hy' =>
          ht c hc y x m (by omega) hy'
        exact hrest.mono fun out hout => ⟨hout.1, hout.2.trans (Nat.le_succ left)⟩
    · exact ⟨hs, le_rfl⟩

theorem drawGroups?_kept (hI : Kept halts width touches I) {alpha : Nat} {stop : Int} (left : Nat)
    (groups : List (List MaskCommand × Nat)) (hs : I s)
    (ht : ∀ spans count, (spans, count) ∈ groups → ∀ c ∈ spans, ∀ y x m, stop - left ≤ y →
      y < stop → c.Touches width alpha x m → touches y x m) :
    Lands halts I (drawGroups? alpha stop s left groups) := by
  induction groups generalizing s left with
  | nil => exact hs
  | cons group rest ih =>
    obtain ⟨spans, count⟩ := group
    have hgroup : Lands halts (fun out => I out.1 ∧ out.2 ≤ left)
        (drawGroup? alpha spans (limit? count) stop s 0 left) :=
      drawGroup?_kept hI left hs (ht spans count (by simp))
    refine hgroup.bind fun out hout => ?_
    obtain ⟨s, left'⟩ := out
    obtain ⟨hs, hle⟩ := hout
    refine ih left' hs fun spans count hmem c hc y x m hy => ?_
    exact ht spans count (by simp [hmem]) c hc y x m (by simp only at hle; omega)

theorem draw?_kept (f : MaskFill) (hI : Kept halts width (f.Touches width) I) (hs : I s) :
    Lands halts I (f.draw? s) := by
  refine drawGroups?_kept hI _ _ (hI.startRow s _ hs) ?_
  intro spans count hmem c hc y x m hy hy' hm
  exact ⟨by omega, c, mem_of_mem_groups hmem hc, hm⟩

end MaskFill

end Scanline
