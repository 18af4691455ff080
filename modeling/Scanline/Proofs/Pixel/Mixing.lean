import Scanline.Proofs.Pixel.Stored
import Mathlib.Order.Interval.Set.Defs
import Mathlib.Tactic.Linarith

/-
  Mixing four pixels. A mean of four numbers keeps what bounds all of them (`IsMean`): weights that
  make 256 give one (`isMean_weighed`), and so does a mean of two that is taken down and then across
  (`isMean_crossed`). `mixes_pack`: a pixel whose channels are such means lies between the four.
-/

namespace Scanline

/-- A mean of four numbers: what bounds all of them bounds it. -/
def IsMean (f : Nat → Nat → Nat → Nat → Nat) : Prop :=
  ∀ {lo hi u v w z}, u ∈ Set.Icc lo hi → v ∈ Set.Icc lo hi → w ∈ Set.Icc lo hi →
    z ∈ Set.Icc lo hi → f u v w z ∈ Set.Icc lo hi

/-- Numbers that are weighed by parts of 256. -/
theorem isMean_weighed {a b c d : Nat} (h : a + b + c + d = 256) :
    IsMean fun u v w z => (a * u + b * v + c * w + d * z) / 256 := by
  intro lo hi u v w z hu hv hw hz
  have hlo : a * lo + b * lo + c * lo + d * lo ≤ a * u + b * v + c * w + d * z :=
    Nat.add_le_add (Nat.add_le_add (Nat.add_le_add (Nat.mul_le_mul_left a hu.1)
      (Nat.mul_le_mul_left b hv.1)) (Nat.mul_le_mul_left c hw.1)) (Nat.mul_le_mul_left d hz.1)
  have hhi : a * u + b * v + c * w + d * z ≤ a * hi + b * hi + c * hi + d * hi :=
    Nat.add_le_add (Nat.add_le_add (Nat.add_le_add (Nat.mul_le_mul_left a hu.2)
      (Nat.mul_le_mul_left b hv.2)) (Nat.mul_le_mul_left c hw.2)) (Nat.mul_le_mul_left d hz.2)
  rw [← Nat.add_mul, ← Nat.add_mul, ← Nat.add_mul, h] at hlo hhi
  constructor
  · exact (Nat.le_div_iff_mul_le (by decide)).mpr (by omega)
  · exact Nat.div_le_of_le_mul hhi

/-- A mean of two numbers, the second of which counts `w` parts of 256. -/
def meanOf (w u v : Nat) : Nat := (u * (256 - w) + v * w) / 256

theorem meanOf_mem {w : Nat} (hw : w ≤ 256) {lo hi u v : Nat} (hu : u ∈ Set.Icc lo hi)
    (hv : v ∈ Set.Icc lo hi) : meanOf w u v ∈ Set.Icc lo hi := by
  have hmean := isMean_weighed (show (256 - w) + w + 0 + 0 = 256 by omega) hu hv hu hv
  simp only [Nat.zero_mul, Nat.add_zero] at hmean
  unfold meanOf
  rwa [Nat.mul_comm u, Nat.mul_comm v]

/-- A mean across of two means down. -/
def crossed (wx wy u00 u10 u01 u11 : Nat) : Nat :=
  meanOf wx (meanOf wy u00 u01) (meanOf wy u10 u11)

theorem isMean_crossed {wx wy : Nat} (hx : wx ≤ 256) (hy : wy ≤ 256) : IsMean (crossed wx wy) :=
  fun h00 h10 h01 h11 => meanOf_mem hx (meanOf_mem hy h00 h01) (meanOf_mem hy h10 h11)

/-- The channels of a pixel, one by one. -/
def Channels.all : List (Channels → Nat) := [b, g, r, a]

theorem Channels.a_mem_all : a ∈ all := by simp [all]

/-- Every channel of the pixel `q` is made by `f` of this channel of the other four, and lies between
the smallest and the largest of them. -/
def Mixes (f : Nat → Nat → Nat → Nat → Nat) (q00 q10 q01 q11 q : UInt32) : Prop :=
  ∀ channel ∈ Channels.all,
    let value (p : UInt32) : Nat := channel (unpack p)
    value q = f (value q00) (value q10) (value q01) (value q11) ∧
      value q ∈ Set.Icc (min (min (value q00) (value q10)) (min (value q01) (value q11)))
        (max (max (value q00) (value q10)) (max (value q01) (value q11)))

theorem Channels.value_le {channel : Channels → Nat} (h : channel ∈ all) (q : UInt32) :
    channel (unpack q) ≤ 255 := by
  obtain ⟨hb, hg, hr, ha⟩ := unpack_le q
  simp only [all, List.mem_cons, List.not_mem_nil, or_false] at h
  rcases h with rfl | rfl | rfl | rfl
  · exact hb
  · exact hg
  · exact hr
  · exact ha

/-- Means of channels have a place in a pixel. -/
theorem mixes_pack {f : Nat → Nat → Nat → Nat → Nat} (hf : IsMean f) {q00 q10 q01 q11 : UInt32}
    {c : Channels} (h : ∀ channel ∈ Channels.all, channel c =
      f (channel (unpack q00)) (channel (unpack q10)) (channel (unpack q01))
        (channel (unpack q11))) : Mixes f q00 q10 q01 q11 c.pack := by
  have hbyte : ∀ channel ∈ Channels.all, channel c ≤ 255 := by
    intro channel hchannel
    have hvalue (q : UInt32) : channel (unpack q) ∈ Set.Icc 0 255 :=
      ⟨Nat.zero_le _, Channels.value_le hchannel q⟩
    rw [h channel hchannel]
    exact (hf (hvalue q00) (hvalue q10) (hvalue q01) (hvalue q11)).2
  have hunpack : unpack c.pack = c := by
    simp only [Channels.all, List.forall_mem_cons] at hbyte
    exact unpack_pack hbyte.1 hbyte.2.1 hbyte.2.2.1 hbyte.2.2.2.1
  intro channel hchannel
  dsimp only
  rw [hunpack, h channel hchannel]
  refine ⟨rfl, hf ⟨?_, ?_⟩ ⟨?_, ?_⟩ ⟨?_, ?_⟩ ⟨?_, ?_⟩⟩
  all_goals omega

end Scanline
