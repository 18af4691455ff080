import Scanline.Pipeline.Basic

/-
  The fields of signatures. A field takes some bits of the word (`SignatureField.place`); what is
  written to it is read back, and fields that share no bit do not see each other (`get_set_self`,
  `get_set_of_apart`). `ofSignature_ofSimplified`: the signature of a simplified operator with a
  fill and a fetch describes the pipeline of these parts. `ofSignature_withDst`: what a signature
  describes for one destination it describes for all of them.
-/

namespace Scanline

/-! ## Writing under a mask -/

theorem or_and_distrib (a b c : UInt32) : (a ||| b) &&& c = (a &&& c) ||| (b &&& c) := by
  apply UInt32.toBitVec_inj.mp
  simp only [UInt32.toBitVec_and, UInt32.toBitVec_or]
  exact BitVec.eq_of_getLsbD_eq fun i _ => by
    simp only [BitVec.getLsbD_and, BitVec.getLsbD_or, Bool.and_or_distrib_right]

/-- Bits outside of a mask do not see what is written under it. -/
theorem write_and_of_disjoint {b w p q : UInt32} (h : p &&& q = 0) :
    ((b &&& ~~~p) ||| (w &&& p)) &&& q = b &&& q := by
  have hq : ~~~p &&& q = q := by
    have hall : (p ||| ~~~p) &&& q = q := by
      rw [UInt32.or_not_self, UInt32.neg_one_and]
    rwa [or_and_distrib, h, UInt32.zero_or] at hall
  rw [or_and_distrib, UInt32.and_assoc, UInt32.and_assoc, hq, h, UInt32.and_zero, UInt32.or_zero]

theorem write_and_self (b w p : UInt32) : ((b &&& ~~~p) ||| (w &&& p)) &&& p = w &&& p := by
  rw [or_and_distrib, UInt32.and_assoc, UInt32.and_assoc, UInt32.and_self, UInt32.not_and_self,
    UInt32.and_zero, UInt32.zero_or]

/-- Where a mask survives being moved up and down again, so does all that lies under it. -/
theorem shiftRight_shiftLeft_and {m k : UInt32} (h : (m <<< k) >>> k = m) (v : UInt32) :
    ((v &&& m) <<< k) >>> k = v &&& m := by
  apply UInt32.toBitVec_inj.mp
  have hmask := congrArg UInt32.toBitVec h
  simp only [UInt32.toBitVec_shiftRight, UInt32.toBitVec_shiftLeft, UInt32.toBitVec_and,
    BitVec.ushiftRight_eq', BitVec.shiftLeft_eq'] at hmask ⊢
  refine BitVec.eq_of_getLsbD_eq fun i hi => ?_
  have hbit := congrArg (fun x => x.getLsbD i) hmask
  simp only [BitVec.getLsbD_ushiftRight, BitVec.getLsbD_shiftLeft, BitVec.getLsbD_and] at hbit ⊢
  rw [← hbit]
  grind

/-! ## Fields -/

namespace SignatureField

/-- The bits of the word that the field takes. -/
def place (f : SignatureField) : UInt32 := f.mask <<< f.shift

/-- No bit of the field is beyond the word. -/
def Fits (f : SignatureField) : Prop := f.place >>> f.shift = f.mask

/-- The fields have no bit in common. -/
def Apart (f g : SignatureField) : Prop := f.place &&& g.place = 0

instance (f : SignatureField) : Decidable f.Fits := inferInstanceAs (Decidable (_ = _))

instance (f g : SignatureField) : Decidable (f.Apart g) := inferInstanceAs (Decidable (_ = _))

end SignatureField

namespace Signature
open SignatureField

variable {f g : SignatureField} {s t : Signature} {id : Nat}

/-- A field is read off its bits alone. -/
theorem get_eq (hf : f.Fits) (s : Signature) :
    s.get f = ((s.bits &&& f.place) >>> f.shift).toNat := by
  have hplace : f.place >>> f.shift = f.mask := hf
  rw [get, UInt32.shiftRight_and, hplace]

theorem get_congr (hf : f.Fits) (h : s.bits &&& f.place = t.bits &&& f.place) :
    s.get f = t.get f := by
  rw [get_eq hf, get_eq hf, h]

theorem bits_set (s : Signature) (f : SignatureField) (id : Nat) :
    (s.set f id).bits =
      (s.bits &&& ~~~f.place) ||| ((UInt32.ofNat id <<< f.shift) &&& f.place) := by
  rw [set, UInt32.shiftLeft_and, place]

/-- What is written to a field is read back, as far as the field has bits for it. -/
theorem get_set_self (hf : f.Fits) (s : Signature) (id : Nat) :
    (s.set f id).get f = (UInt32.ofNat id &&& f.mask).toNat := by
  rw [get_eq hf, bits_set, write_and_self, place, ← UInt32.shiftLeft_and,
    shiftRight_shiftLeft_and hf]

/-- A field keeps what it holds when another one is written. -/
theorem get_set_of_apart (hg : g.Fits) (h : f.Apart g) (s : Signature) (id : Nat) :
    (s.set f id).get g = s.get g :=
  get_congr hg (by rw [bits_set, write_and_of_disjoint h])

theorem isPending_set (h : f.place &&& pendingBit = 0) (s : Signature) (id : Nat) :
    (s.set f id).isPending = s.isPending := by
  rw [isPending, isPending, bits_set, write_and_of_disjoint h]

/-! ## Signatures of simplified operators -/

theorem bits_ofSimplified (x : Simplified) (p : UInt32) (hp : 0x3FFF &&& p = p) :
    (ofSimplified x).bits &&& p =
      (UInt32.ofNat x.dst.id &&& p) ||| ((UInt32.ofNat x.src.id <<< 4) &&& p)
        ||| ((UInt32.ofNat x.op.id <<< 8) &&& p) ||| ((UInt32.ofNat x.solid.id <<< 16) &&& p) := by
  rw [ofSimplified, Simplified.signatureBits, UInt32.and_assoc, hp, Simplified.bits,
    or_and_distrib, or_and_distrib, or_and_distrib]

theorem get_dst_ofSimplified (x : Simplified) : (ofSimplified x).get .dst = x.dst.id := by
  have hsrc : (UInt32.ofNat x.src.id <<< 4) &&& SignatureField.dst.place = 0 := by
    cases x.src <;> rfl
  have hop : (UInt32.ofNat x.op.id <<< 8) &&& SignatureField.dst.place = 0 := by
    cases x.op <;> rfl
  have hsolid : (UInt32.ofNat x.solid.id <<< 16) &&& SignatureField.dst.place = 0 := by
    cases x.solid <;> rfl
  rw [get_eq (by decide), bits_ofSimplified x _ rfl, hsrc, hop, hsolid, UInt32.or_zero,
    UInt32.or_zero, UInt32.or_zero]
  cases x.dst <;> rfl

theorem get_src_ofSimplified (x : Simplified) : (ofSimplified x).get .src = x.src.id := by
  have hdst : UInt32.ofNat x.dst.id &&& SignatureField.src.place = 0 := by
    cases x.dst <;> rfl
  have hop : (UInt32.ofNat x.op.id <<< 8) &&& SignatureField.src.place = 0 := by
    cases x.op <;> rfl
  have hsolid : (UInt32.ofNat x.solid.id <<< 16) &&& SignatureField.src.place = 0 := by
    cases x.solid <;> rfl
  rw [get_eq (by decide), bits_ofSimplified x _ rfl, hdst, hop, hsolid, UInt32.or_zero,
    UInt32.or_zero, UInt32.zero_or]
  cases x.src <;> rfl

theorem get_op_ofSimplified (x : Simplified) : (ofSimplified x).get .op = x.op.id := by
  have hdst : UInt32.ofNat x.dst.id &&& SignatureField.op.place = 0 := by
    cases x.dst <;> rfl
  have hsrc : (UInt32.ofNat x.src.id <<< 4) &&& SignatureField.op.place = 0 := by
    cases x.src <;> rfl
  have hsolid : (UInt32.ofNat x.solid.id <<< 16) &&& SignatureField.op.place = 0 := by
    cases x.solid <;> rfl
  rw [get_eq (by decide), bits_ofSimplified x _ rfl, hdst, hsrc, hsolid, UInt32.or_zero,
    UInt32.zero_or, UInt32.zero_or]
  cases x.op <;> rfl

theorem isPending_ofSimplified (x : Simplified) : (ofSimplified x).isPending = false := by
  have hpending : (0x3FFF : UInt32) &&& pendingBit = 0 := rfl
  rw [isPending, ofSimplified, Simplified.signatureBits, UInt32.and_assoc, hpending,
    UInt32.and_zero]
  rfl

variable (x : Simplified) (k : FillKind) (kind : FetchKind)

theorem get_fill_withFill (s : Signature) : (s.withFill k).get .fill = k.id := by
  rw [withFill, get_set_self (by decide)]
  cases k <;> rfl

theorem get_fetch_withFetch (s : Signature) : (s.withFetch kind).get .fetch = kind.id := by
  rw [withFetch, get_set_self (by decide)]
  cases kind <;> rfl

/-- A field that is neither the fill nor the fetch is what the simplified operator says. -/
theorem get_withFill_withFetch (hf : f.Fits) (hfill : SignatureField.fill.Apart f)
    (hfetch : SignatureField.fetch.Apart f) (s : Signature) :
    ((s.withFill k).withFetch kind).get f = s.get f :=
  (get_set_of_apart hf hfetch _ _).trans (get_set_of_apart hf hfill _ _)

/-- The signature of a simplified operator with a fill and a fetch describes the pipeline of these
parts. -/
theorem ofSignature_ofSimplified (hk : k ≠ .none) :
    Pipeline.ofSignature (((ofSimplified x).withFill k).withFetch kind) =
      .ok ⟨((ofSimplified x).withFill k).withFetch kind, x.dst, x.src, x.op, k, kind⟩ := by
  have hpending : (((ofSimplified x).withFill k).withFetch kind).isPending = false := by
    rw [withFetch, isPending_set (by decide), withFill, isPending_set (by decide),
      isPending_ofSimplified]
  have hdst : (((ofSimplified x).withFill k).withFetch kind).dst? = some x.dst := by
    rw [dst?, get_withFill_withFetch k kind (by decide) (by decide) (by decide),
      get_dst_ofSimplified, PixelFormat.ofId?_id]
  have hsrc : (((ofSimplified x).withFill k).withFetch kind).src? = some x.src := by
    rw [src?, get_withFill_withFetch k kind (by decide) (by decide) (by decide),
      get_src_ofSimplified, PixelFormat.ofId?_id]
  have hop : (((ofSimplified x).withFill k).withFetch kind).op? = some x.op := by
    rw [op?, get_withFill_withFetch k kind (by decide) (by decide) (by decide),
      get_op_ofSimplified, Operator.ofId?_id]
  have hfill : (((ofSimplified x).withFill k).withFetch kind).fill? = some k := by
    rw [fill?, withFetch, get_set_of_apart (by decide) (by decide), get_fill_withFill,
      FillKind.ofId?_id]
  have hfetch : (((ofSimplified x).withFill k).withFetch kind).fetch? = some kind := by
    rw [fetch?, get_fetch_withFetch, FetchKind.ofId?_id]
  rw [Pipeline.ofSignature, hpending, hdst, hsrc, hop, hfill, hfetch]
  exact if_neg hk

/-! ## Other destinations -/

/-- What a signature describes for one destination it describes for all of them. -/
theorem ofSignature_withDst (s : Signature) :
    (∃ p : Pipeline, ∀ f,
        Pipeline.ofSignature (s.withDst f) = .ok { p with signature := s.withDst f, dst := f }) ∨
      (∀ f, Pipeline.ofSignature (s.withDst f) = .error (.pending (s.withDst f))) ∨
      ∀ f, Pipeline.ofSignature (s.withDst f) = .error (.invalidSignature (s.withDst f)) := by
  have hpending (f : PixelFormat) : (s.withDst f).isPending = s.isPending :=
    isPending_set (by decide) s f.id
  have hdst (f : PixelFormat) : (s.withDst f).dst? = some f := by
    rw [dst?, withDst, get_set_self (by decide)]
    cases f <;> rfl
  have hsrc (f : PixelFormat) : (s.withDst f).src? = s.src? :=
    congrArg PixelFormat.ofId? (get_set_of_apart (by decide) (by decide) s f.id)
  have hop (f : PixelFormat) : (s.withDst f).op? = s.op? :=
    congrArg Operator.ofId? (get_set_of_apart (by decide) (by decide) s f.id)
  have hfill (f : PixelFormat) : (s.withDst f).fill? = s.fill? :=
    congrArg FillKind.ofId? (get_set_of_apart (by decide) (by decide) s f.id)
  have hfetch (f : PixelFormat) : (s.withDst f).fetch? = s.fetch? :=
    congrArg FetchKind.ofId? (get_set_of_apart (by decide) (by decide) s f.id)
  simp only [Pipeline.ofSignature, hpending, hdst, hsrc, hop, hfill, hfetch]
  split
  · exact .inr (.inl fun f => rfl)
  · cases s.src? with
    | none => exact .inr (.inr fun f => rfl)
    | some src =>
      cases s.op? with
      | none => exact .inr (.inr fun f => rfl)
      | some op =>
        cases s.fill? with
        | none => exact .inr (.inr fun f => rfl)
        | some fill =>
          cases s.fetch? with
          | none => exact .inr (.inr fun f => rfl)
          | some fetch =>
            dsimp only
            split
            · exact .inr (.inr fun f => rfl)
            · exact .inl ⟨⟨s, .prgb32, src, op, fill, fetch⟩, fun f => rfl⟩

end Signature

end Scanline
