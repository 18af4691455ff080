import Scanline.Proofs.Signature.Fields

/-
  Settings of signatures, and what can be read of them. Every part of a signature has bits of its
  own (`SignaturePart.place_apart`); to set a part is to write a word under them
  (`Setting.bits_apply`), and what is set can be read exactly where these bits agree with the word
  (`Setting.heldBy_iff`). Along a chain of settings a part therefore holds the last value that was
  set for it, and bits that no setting takes stay as they are.
  `settings_independent` says this, and that a word without unused bits describes a pipeline exactly
  when it is the signature of five parts.
-/

namespace Scanline

/-! ## Words under masks -/

/-- A word is known from what lies under a mask and beside it. -/
theorem write_and_not (b p : UInt32) : (b &&& ~~~p) ||| (b &&& p) = b := by
  apply UInt32.toBitVec_inj.mp
  simp only [UInt32.toBitVec_and, UInt32.toBitVec_or, UInt32.toBitVec_not]
  exact BitVec.eq_of_getLsbD_eq fun i hi => by
    simp only [BitVec.getLsbD_and, BitVec.getLsbD_or, BitVec.getLsbD_not, hi, decide_true,
      Bool.true_and]
    cases b.toBitVec.getLsbD i <;> cases p.toBitVec.getLsbD i <;> rfl

/-- Writes under masks without a common bit can be made in either order. -/
theorem write_comm {p q : UInt32} (h : p &&& q = 0) (b v w : UInt32) :
    (((b &&& ~~~p) ||| (v &&& p)) &&& ~~~q) ||| (w &&& q) =
      (((b &&& ~~~q) ||| (w &&& q)) &&& ~~~p) ||| (v &&& p) := by
  apply UInt32.toBitVec_inj.mp
  have hbits := congrArg UInt32.toBitVec h
  simp only [UInt32.toBitVec_and, UInt32.toBitVec_or, UInt32.toBitVec_not] at hbits ⊢
  refine BitVec.eq_of_getLsbD_eq fun i hi => ?_
  have hbit := congrArg (fun x => x.getLsbD i) hbits
  simp only [BitVec.getLsbD_and, BitVec.getLsbD_or, BitVec.getLsbD_not, hi, decide_true,
    Bool.true_and, UInt32.toBitVec_zero, BitVec.getLsbD_zero] at hbit ⊢
  revert hbit
  cases p.toBitVec.getLsbD i <;> cases q.toBitVec.getLsbD i <;> simp

/-- A word that is moved down and up again keeps what the mask allows. -/
theorem shiftLeft_shiftRight_and (v m k : UInt32) :
    ((v >>> k) &&& m) <<< k = v &&& (m <<< k) := by
  apply UInt32.toBitVec_inj.mp
  simp only [UInt32.toBitVec_shiftRight, UInt32.toBitVec_shiftLeft, UInt32.toBitVec_and,
    BitVec.ushiftRight_eq', BitVec.shiftLeft_eq']
  refine BitVec.eq_of_getLsbD_eq fun i hi => ?_
  simp only [BitVec.getLsbD_ushiftRight, BitVec.getLsbD_shiftLeft, BitVec.getLsbD_and]
  grind

/-- A write of ones is the union with the mask. -/
theorem write_ones (b p : UInt32) : (b &&& ~~~p) ||| (p &&& p) = b ||| p := by
  apply UInt32.toBitVec_inj.mp
  simp only [UInt32.toBitVec_and, UInt32.toBitVec_or, UInt32.toBitVec_not]
  exact BitVec.eq_of_getLsbD_eq fun i hi => by
    simp only [BitVec.getLsbD_and, BitVec.getLsbD_or, BitVec.getLsbD_not, hi, decide_true,
      Bool.true_and]
    cases b.toBitVec.getLsbD i <;> cases p.toBitVec.getLsbD i <;> rfl

/-! ## Ids -/

theorem Operator.ofId?_eq_some_iff {i : Nat} {op : Operator} :
    Operator.ofId? i = some op ↔ i = op.id := by
  have hall : ∀ i : Fin 30, (Operator.all[i]).id = i := by decide
  constructor
  · intro h
    obtain ⟨hi, rfl⟩ := List.getElem?_eq_some_iff.mp h
    exact (hall ⟨i, hi⟩).symm
  · rintro rfl
    exact ofId?_id op

theorem PixelFormat.ofId?_eq_some_iff {i : Nat} {f : PixelFormat} :
    PixelFormat.ofId? i = some f ↔ i = f.id :=
  ⟨fun h => (ofId?_eq_some h).symm, fun h => h ▸ ofId?_id f⟩

theorem FillKind.ofId?_eq_some_iff {i : Nat} {k : FillKind} :
    FillKind.ofId? i = some k ↔ i = k.id := by
  have hall : ∀ i : Fin 5, (FillKind.all[i]).id = i := by decide
  constructor
  · intro h
    obtain ⟨hi, rfl⟩ := List.getElem?_eq_some_iff.mp h
    exact (hall ⟨i, hi⟩).symm
  · rintro rfl
    exact ofId?_id k

theorem FetchKind.ofId?_eq_some_iff {i : Nat} {k : FetchKind} :
    FetchKind.ofId? i = some k ↔ i = k.id := by
  have hall : ∀ i : Fin 25, (FetchKind.all[i]).id = i := by decide
  constructor
  · intro h
    obtain ⟨hi, rfl⟩ := List.getElem?_eq_some_iff.mp h
    exact (hall ⟨i, hi⟩).symm
  · rintro rfl
    exact ofId?_id k

/-! ## Parts -/

/-- What can be set in a signature. -/
inductive SignaturePart where
  | dst
  | src
  | op
  | fill
  | fetch
  | pending
  deriving DecidableEq

namespace SignaturePart

/-- The bits of the word that the part takes. -/
def place : SignaturePart → UInt32
  | dst => SignatureField.dst.place
  | src => SignatureField.src.place
  | op => SignatureField.op.place
  | fill => SignatureField.fill.place
  | fetch => SignatureField.fetch.place
  | pending => Signature.pendingBit

/-- What the part holds, as a number: an id, or whether the fetch is pending. -/
def read (s : Signature) : SignaturePart → Nat
  | dst => s.get .dst
  | src => s.get .src
  | op => s.get .op
  | fill => s.get .fill
  | fetch => s.get .fetch
  | pending => s.isPending.toNat

theorem place_apart {p q : SignaturePart} (h : p ≠ q) : p.place &&& q.place = 0 := by
  cases p <;> cases q <;> first | rfl | exact absurd rfl h

/-- A part is read off its bits alone. -/
theorem read_congr {s t : Signature} (p : SignaturePart)
    (h : s.bits &&& p.place = t.bits &&& p.place) : p.read s = p.read t := by
  cases p with
  | dst | src | op | fill | fetch => exact Signature.get_congr (by decide) h
  | pending => exact congrArg (fun b : UInt32 => (b != 0).toNat) h

end SignaturePart

/-- A field holds an id exactly where its bits are those of the id. -/
theorem Signature.get_eq_iff {s : Signature} {f : SignatureField} {n : Nat} (hf : f.Fits)
    (hn : (UInt32.ofNat n &&& f.mask).toNat = n) :
    s.get f = n ↔ s.bits &&& f.place = (UInt32.ofNat n <<< f.shift) &&& f.place := by
  constructor
  · intro h
    have hid : UInt32.ofNat n &&& f.mask = (s.bits >>> f.shift) &&& f.mask :=
      UInt32.toNat_inj.mp (hn.trans h.symm)
    rw [SignatureField.place, ← UInt32.shiftLeft_and, hid, shiftLeft_shiftRight_and]
  · intro h
    have hset := (s.bits_set f n ▸ write_and_self s.bits (UInt32.ofNat n <<< f.shift) f.place)
    rw [get_congr hf (h.trans hset.symm), get_set_self hf, hn]

theorem Signature.isPending_iff {s : Signature} :
    s.isPending = true ↔ s.bits &&& pendingBit = pendingBit &&& pendingBit := by
  have hbit : s.bits &&& pendingBit = 0 ∨ s.bits &&& pendingBit = pendingBit := by
    simp only [← UInt32.toBitVec_inj, UInt32.toBitVec_and]
    have hone : pendingBit.toBitVec = BitVec.twoPow 32 31 := rfl
    rw [hone, BitVec.and_twoPow]
    cases s.bits.toBitVec.getLsbD 31 with
    | false => exact .inl rfl
    | true => exact .inr rfl
  rw [isPending, bne_iff_ne]
  rcases hbit with h | h <;> rw [h] <;> decide

/-- The bits that belong to no part. -/
def Signature.unusedBits : UInt32 := 0x7FC00000

theorem SignaturePart.place_and_unusedBits (p : SignaturePart) :
    p.place &&& Signature.unusedBits = 0 := by
  cases p <;> rfl

/-- A signature is known from its parts and its unused bits. -/
theorem Signature.eq_of_parts {s t : Signature}
    (hparts : ∀ p : SignaturePart, s.bits &&& p.place = t.bits &&& p.place)
    (hunused : s.bits &&& unusedBits = t.bits &&& unusedBits) : s = t := by
  have hall : SignaturePart.dst.place ||| SignaturePart.src.place ||| SignaturePart.op.place
      ||| SignaturePart.fill.place ||| SignaturePart.fetch.place ||| SignaturePart.pending.place
      ||| unusedBits = -1 := by decide
  have hsplit (b : UInt32) : b = (SignaturePart.dst.place &&& b) ||| (SignaturePart.src.place &&& b)
      ||| (SignaturePart.op.place &&& b) ||| (SignaturePart.fill.place &&& b)
      ||| (SignaturePart.fetch.place &&& b) ||| (SignaturePart.pending.place &&& b)
      ||| (unusedBits &&& b) := by
    rw [← or_and_distrib, ← or_and_distrib, ← or_and_distrib, ← or_and_distrib, ← or_and_distrib,
      ← or_and_distrib, hall, UInt32.neg_one_and]
  obtain ⟨b⟩ := s
  obtain ⟨c⟩ := t
  simp only [UInt32.and_comm b, UInt32.and_comm c] at hparts hunused
  rw [Signature.mk.injEq, hsplit b, hsplit c, hunused]
  simp only [hparts]

/-! ## Settings -/

/-- A part of a signature with what is set there. -/
inductive Setting where
  | dst (f : PixelFormat)
  | src (f : PixelFormat)
  | op (o : Operator)
  | fill (k : FillKind)
  | fetch (k : FetchKind)
  | pending

namespace Setting

def part : Setting → SignaturePart
  | dst _ => .dst
  | src _ => .src
  | op _ => .op
  | fill _ => .fill
  | fetch _ => .fetch
  | pending => .pending

/-- The signature with the part set. -/
def apply (s : Signature) : Setting → Signature
  | dst f => s.withDst f
  | src f => s.withSrc f
  | op o => s.withOp o
  | fill k => s.withFill k
  | fetch k => s.withFetch k
  | pending => s.withPending

/-- What is set is read back. -/
def HeldBy (s : Signature) : Setting → Prop
  | dst f => s.dst? = some f
  | src f => s.src? = some f
  | op o => s.op? = some o
  | fill k => s.fill? = some k
  | fetch k => s.fetch? = some k
  | pending => s.isPending = true

/-- The word that carries what is set. -/
def word : Setting → UInt32
  | dst f => UInt32.ofNat f.id <<< SignatureField.dst.shift
  | src f => UInt32.ofNat f.id <<< SignatureField.src.shift
  | op o => UInt32.ofNat o.id <<< SignatureField.op.shift
  | fill k => UInt32.ofNat k.id <<< SignatureField.fill.shift
  | fetch k => UInt32.ofNat k.id <<< SignatureField.fetch.shift
  | pending => Signature.pendingBit

variable {s : Signature}

/-- To set a part is to write a word under its bits. -/
theorem bits_apply (x : Setting) (s : Signature) :
    (x.apply s).bits = (s.bits &&& ~~~x.part.place) ||| (x.word &&& x.part.place) := by
  cases x with
  | dst | src | op | fill | fetch => exact Signature.bits_set s _ _
  | pending => exact (write_ones s.bits Signature.pendingBit).symm

/-- What is set can be read exactly where the bits of the part agree with the word. -/
theorem heldBy_iff (x : Setting) :
    x.HeldBy s ↔ s.bits &&& x.part.place = x.word &&& x.part.place := by
  cases x with
  | dst f =>
    have hid : (UInt32.ofNat f.id &&& SignatureField.dst.mask).toNat = f.id := by cases f <;> rfl
    exact PixelFormat.ofId?_eq_some_iff.trans (Signature.get_eq_iff (by decide) hid)
  | src f =>
    have hid : (UInt32.ofNat f.id &&& SignatureField.src.mask).toNat = f.id := by cases f <;> rfl
    exact PixelFormat.ofId?_eq_some_iff.trans (Signature.get_eq_iff (by decide) hid)
  | op o =>
    have hid : (UInt32.ofNat o.id &&& SignatureField.op.mask).toNat = o.id := by cases o <;> rfl
    exact Operator.ofId?_eq_some_iff.trans (Signature.get_eq_iff (by decide) hid)
  | fill k =>
    have hid : (UInt32.ofNat k.id &&& SignatureField.fill.mask).toNat = k.id := by cases k <;> rfl
    exact FillKind.ofId?_eq_some_iff.trans (Signature.get_eq_iff (by decide) hid)
  | fetch k =>
    have hid : (UInt32.ofNat k.id &&& SignatureField.fetch.mask).toNat = k.id := by cases k <;> rfl
    exact FetchKind.ofId?_eq_some_iff.trans (Signature.get_eq_iff (by decide) hid)
  | pending => exact Signature.isPending_iff

theorem heldBy_apply (x : Setting) (s : Signature) : x.HeldBy (x.apply s) := by
  rw [heldBy_iff, bits_apply, write_and_self]

/-- Bits beside the part do not see that it is set. -/
theorem apply_and_of_apart {x : Setting} {q : UInt32} (h : x.part.place &&& q = 0)
    (s : Signature) : (x.apply s).bits &&& q = s.bits &&& q := by
  rw [bits_apply, write_and_of_disjoint h]

theorem apply_comm {x y : Setting} (h : x.part ≠ y.part) (s : Signature) :
    y.apply (x.apply s) = x.apply (y.apply s) := by
  have hbits : (y.apply (x.apply s)).bits = (x.apply (y.apply s)).bits := by
    simp only [bits_apply]
    exact write_comm (SignaturePart.place_apart h) s.bits x.word y.word
  exact congrArg Signature.mk hbits

/-- No bit of the word lies beside the part. -/
theorem word_and_place (x : Setting) : x.word &&& x.part.place = x.word := by
  cases x with
  | dst f | src f => cases f <;> rfl
  | op o => cases o <;> rfl
  | fill k | fetch k => cases k <;> rfl
  | pending => rfl

/-- Where nothing is set yet, setting a part adds its word. -/
theorem bits_apply_of_unset {x : Setting} (h : s.bits &&& x.part.place = 0) :
    (x.apply s).bits = s.bits ||| x.word := by
  have hkept := write_and_not s.bits x.part.place
  rw [h, UInt32.or_zero] at hkept
  rw [bits_apply, word_and_place, hkept]

end Setting

/-! ## Chains of settings -/

namespace Signature

/-- The signature after a chain of settings. -/
def withAll (s : Signature) (xs : List Setting) : Signature :=
  xs.foldl (fun s x => x.apply s) s

/-- Bits beside all parts of a chain stay as they are. -/
theorem withAll_and_of_apart {q : UInt32} {xs : List Setting}
    (h : ∀ x ∈ xs, x.part.place &&& q = 0) (s : Signature) :
    (s.withAll xs).bits &&& q = s.bits &&& q := by
  induction xs generalizing s with
  | nil => rfl
  | cons x xs ih =>
    have hx := Setting.apply_and_of_apart (h x List.mem_cons_self) s
    exact (ih (fun z hz => h z (List.mem_cons_of_mem x hz)) (x.apply s)).trans hx

/-- The last setting of a part holds after the chain. -/
theorem heldBy_withAll {ys zs : List Setting} {x : Setting} (h : ∀ z ∈ zs, z.part ≠ x.part)
    (s : Signature) : x.HeldBy (s.withAll (ys ++ x :: zs)) := by
  have hsplit : s.withAll (ys ++ x :: zs) = (x.apply (s.withAll ys)).withAll zs :=
    List.foldl_append
  have hkept := withAll_and_of_apart (fun z hz => SignaturePart.place_apart (h z hz))
    (x.apply (s.withAll ys))
  rw [hsplit, Setting.heldBy_iff, hkept]
  exact x.heldBy_iff.mp (x.heldBy_apply _)

/-- Where no part is set twice, every setting of the chain holds. -/
theorem heldBy_withAll_of_mem {xs : List Setting} {x : Setting}
    (hxs : xs.Pairwise fun x y => x.part ≠ y.part) (hx : x ∈ xs) (s : Signature) :
    x.HeldBy (s.withAll xs) := by
  obtain ⟨ys, zs, rfl⟩ := List.append_of_mem hx
  have hlater := (List.pairwise_cons.mp (List.pairwise_append.mp hxs).2.1).1
  exact heldBy_withAll (fun z hz => (hlater z hz).symm) s

/-- A part that is not set in the chain reads as before. -/
theorem read_withAll {p : SignaturePart} {xs : List Setting} (h : ∀ x ∈ xs, x.part ≠ p)
    (s : Signature) : p.read (s.withAll xs) = p.read s :=
  p.read_congr (withAll_and_of_apart (fun x hx => SignaturePart.place_apart (h x hx)) s)

/-- Settings of parts that are not set yet add up. -/
theorem bits_withAll_of_unset {xs : List Setting} (hxs : xs.Pairwise fun x y => x.part ≠ y.part)
    {s : Signature} (hs : ∀ x ∈ xs, s.bits &&& x.part.place = 0) :
    (s.withAll xs).bits = xs.foldl (fun b x => b ||| x.word) s.bits := by
  induction xs generalizing s with
  | nil => rfl
  | cons x xs ih =>
    obtain ⟨hx, hxs⟩ := List.pairwise_cons.mp hxs
    have hrest : ∀ y ∈ xs, (x.apply s).bits &&& y.part.place = 0 := fun y hy =>
      (Setting.apply_and_of_apart (SignaturePart.place_apart (hx y hy)) s).trans
        (hs y (List.mem_cons_of_mem x hy))
    have hrun : (s.withAll (x :: xs)).bits = _ := ih hxs hrest
    rw [hrun, Setting.bits_apply_of_unset (hs x List.mem_cons_self)]
    rfl

end Signature

/-! ## Decoding -/

namespace Pipeline

variable {s : Signature}

/-- What a pipeline is made of, as settings of its signature. -/
def settings (p : Pipeline) : List Setting :=
  [.dst p.dst, .src p.src, .op p.op, .fill p.fill, .fetch p.fetch]

theorem settings_pairwise (p : Pipeline) :
    p.settings.Pairwise fun x y => x.part ≠ y.part := by
  simp [settings, Setting.part]

theorem part_ne_pending {p : Pipeline} {x : Setting} (hx : x ∈ p.settings) :
    x.part ≠ .pending := by
  cases x with
  | dst | src | op | fill | fetch => exact nofun
  | pending => simp [settings] at hx

/-- The signature of a pipeline's parts: the empty word with all of them set. -/
theorem ofParts_eq_withAll (p : Pipeline) :
    Signature.ofParts p.dst p.src p.op p.fill p.fetch = (Signature.mk 0).withAll p.settings := by
  have hunset : ∀ x ∈ p.settings, (Signature.mk 0).bits &&& x.part.place = 0 := fun _ _ =>
    UInt32.zero_and
  have hbits := Signature.bits_withAll_of_unset p.settings_pairwise hunset
  have hzero (v : UInt32) : 0 ||| v <<< SignatureField.dst.shift = v :=
    UInt32.zero_or.trans UInt32.shiftLeft_zero
  simp only [settings, List.foldl, Setting.word, hzero] at hbits
  exact congrArg Signature.mk hbits.symm

/-- What the decoder asks for. -/
theorem ofSignature_eq_ok_iff {p : Pipeline} :
    ofSignature s = .ok p ↔ p.signature = s ∧ p.fill ≠ .none ∧ s.isPending = false ∧
      ∀ x ∈ p.settings, x.HeldBy s := by
  have hheld : (∀ x ∈ p.settings, x.HeldBy s) ↔ s.dst? = some p.dst ∧ s.src? = some p.src ∧
      s.op? = some p.op ∧ s.fill? = some p.fill ∧ s.fetch? = some p.fetch := by
    simp [settings, Setting.HeldBy]
  rw [hheld]
  constructor
  · intro h
    unfold ofSignature at h
    split at h
    · cases h
    rename_i hpending
    split at h
    · rename_i hdst hsrc hop hfill hfetch
      split at h
      · cases h
      rename_i hnone
      cases h
      exact ⟨rfl, hnone, by simpa using hpending, hdst, hsrc, hop, hfill, hfetch⟩
    · cases h
  · rintro ⟨rfl, hnone, hpending, hdst, hsrc, hop, hfill, hfetch⟩
    rw [ofSignature, hpending, hdst, hsrc, hop, hfill, hfetch]
    exact if_neg hnone

/-- The parts lie beside the pending mark and the unused bits. -/
theorem ofParts_and_of_apart {p : Pipeline} {q : UInt32}
    (h : ∀ x ∈ p.settings, x.part.place &&& q = 0) :
    (Signature.ofParts p.dst p.src p.op p.fill p.fetch).bits &&& q = 0 := by
  rw [ofParts_eq_withAll, Signature.withAll_and_of_apart h, UInt32.zero_and]

/-- A word without unused bits is the signature of five parts exactly where it holds them and is not
pending. -/
theorem eq_ofParts_iff (hs : s.bits &&& Signature.unusedBits = 0) (p : Pipeline) :
    s = .ofParts p.dst p.src p.op p.fill p.fetch ↔
      s.isPending = false ∧ ∀ x ∈ p.settings, x.HeldBy s := by
  have hpending : ∀ x ∈ p.settings, x.part.place &&& Signature.pendingBit = 0 := fun _ hx =>
    SignaturePart.place_apart (part_ne_pending hx)
  have hunused : ∀ x ∈ p.settings, x.part.place &&& Signature.unusedBits = 0 := fun x _ =>
    x.part.place_and_unusedBits
  have hparts : ∀ x ∈ p.settings, x.HeldBy (.ofParts p.dst p.src p.op p.fill p.fetch) := by
    intro x hx
    rw [ofParts_eq_withAll]
    exact Signature.heldBy_withAll_of_mem p.settings_pairwise hx _
  constructor
  · rintro h
    rw [h]
    exact ⟨bne_eq_false_iff_eq.mpr (ofParts_and_of_apart hpending), hparts⟩
  · rintro ⟨hnot, hheld⟩
    have hagree (x : Setting) (hx : x ∈ p.settings) : s.bits &&& x.part.place =
        (Signature.ofParts p.dst p.src p.op p.fill p.fetch).bits &&& x.part.place :=
      (x.heldBy_iff.mp (hheld x hx)).trans (x.heldBy_iff.mp (hparts x hx)).symm
    refine Signature.eq_of_parts (fun part => ?_) (hs.trans (ofParts_and_of_apart hunused).symm)
    cases part with
    | dst => exact hagree (.dst p.dst) (by simp [settings])
    | src => exact hagree (.src p.src) (by simp [settings])
    | op => exact hagree (.op p.op) (by simp [settings])
    | fill => exact hagree (.fill p.fill) (by simp [settings])
    | fetch => exact hagree (.fetch p.fetch) (by simp [settings])
    | pending =>
      exact (bne_eq_false_iff_eq.mp hnot).trans (ofParts_and_of_apart hpending).symm

end Pipeline

/-- Settings of a signature are independent and survive packing. After a chain of settings each
part that is set holds its last value, all other parts and all bits beside the parts that are set
are as before, and settings of different parts commute; a word without unused bits describes a
pipeline exactly when it is the signature of its five parts, one of them a fill. -/
theorem settings_independent (s : Signature) (xs : List Setting) :
    (∀ ys x zs, xs = ys ++ x :: zs → (∀ z ∈ zs, z.part ≠ x.part) → x.HeldBy (s.withAll xs)) ∧
      (∀ part, (∀ x ∈ xs, x.part ≠ part) → part.read (s.withAll xs) = part.read s) ∧
      (∀ q, (∀ x ∈ xs, x.part.place &&& q = 0) → (s.withAll xs).bits &&& q = s.bits &&& q) ∧
      (∀ x y : Setting, x.part ≠ y.part → y.apply (x.apply s) = x.apply (y.apply s)) ∧
      (s.bits &&& Signature.unusedBits = 0 → ∀ p, Pipeline.ofSignature s = .ok p ↔
        p.signature = s ∧ p.fill ≠ .none ∧ s = .ofParts p.dst p.src p.op p.fill p.fetch) := by
  refine ⟨?_, fun part h => Signature.read_withAll h s, fun q h => Signature.withAll_and_of_apart h s,
    fun x y h => Setting.apply_comm h s, fun hunused p => ?_⟩
  · rintro ys x zs rfl hlast
    exact Signature.heldBy_withAll hlast s
  · rw [Pipeline.ofSignature_eq_ok_iff, Pipeline.eq_ofParts_iff hunused]

/-- The operator is set twice, and no fill is set at all. -/
theorem settings_over_operator :
    let s := Signature.ofParts .prgb32 .a8 .srcOver .mask .solid
    let xs := [Setting.op .plus, .pending, .op .xor]
    (Setting.op .xor).HeldBy (s.withAll xs) ∧
      SignaturePart.fill.read (s.withAll xs) = FillKind.mask.id ∧
      (s.withAll xs).bits &&& Signature.unusedBits = 0 ∧
      Setting.pending.apply ((Setting.op .xor).apply s) =
        (Setting.op .xor).apply (Setting.pending.apply s) ∧
      Pipeline.ofSignature s = .ok ⟨s, .prgb32, .a8, .srcOver, .mask, .solid⟩ := by
  intro s xs
  obtain ⟨hlast, hother, hbits, hcomm, hdecode⟩ := settings_independent s xs
  refine ⟨hlast [.op .plus, .pending] _ [] rfl nofun, ?_, ?_, hcomm _ _ nofun, ?_⟩
  · exact (hother .fill (by decide)).trans (by decide)
  · exact (hbits Signature.unusedBits (by decide)).trans (by decide)
  · exact (hdecode (by decide) _).mpr ⟨rfl, nofun, rfl⟩

end Scanline
