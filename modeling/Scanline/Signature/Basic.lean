import Scanline.Operator.Basic
import Scanline.Operator.Simplify
import Scanline.Pixel.Format
import Scanline.Signature.Kind

/-
  Signatures. A signature is a word that names a pipeline: destination format in bits 0 to 3,
  source format in bits 4 to 7, operator in bits 8 to 13, fill kind in bits 14 to 16, fetch kind
  in bits 17 to 21, and in bit 31 whether the fetch is still pending.
-/

namespace Scanline

/-- The key of a pipeline. -/
structure Signature where
  bits : UInt32
  deriving DecidableEq, Repr

/-- A run of bits in a signature. -/
structure SignatureField where
  shift : UInt32
  /-- As many ones as the field has bits. -/
  mask : UInt32

namespace SignatureField

def dst : SignatureField := ⟨0, 0xF⟩
def src : SignatureField := ⟨4, 0xF⟩
def op : SignatureField := ⟨8, 0x3F⟩
def fill : SignatureField := ⟨14, 0x7⟩
def fetch : SignatureField := ⟨17, 0x1F⟩

end SignatureField

namespace Signature

/-- The bit that marks a pending fetch. -/
def pendingBit : UInt32 := 0x80000000

/-- The id that a field holds. -/
def get (s : Signature) (f : SignatureField) : Nat := ((s.bits >>> f.shift) &&& f.mask).toNat

/-- The signature with an id written to one field. -/
def set (s : Signature) (f : SignatureField) (id : Nat) : Signature :=
  ⟨(s.bits &&& ~~~(f.mask <<< f.shift)) ||| ((UInt32.ofNat id &&& f.mask) <<< f.shift)⟩

def dst? (s : Signature) : Option PixelFormat := PixelFormat.ofId? (s.get .dst)
def src? (s : Signature) : Option PixelFormat := PixelFormat.ofId? (s.get .src)
def op? (s : Signature) : Option Operator := Operator.ofId? (s.get .op)
def fill? (s : Signature) : Option FillKind := FillKind.ofId? (s.get .fill)
def fetch? (s : Signature) : Option FetchKind := FetchKind.ofId? (s.get .fetch)

def isPending (s : Signature) : Bool := s.bits &&& pendingBit != 0

def withDst (s : Signature) (f : PixelFormat) : Signature := s.set .dst f.id
def withSrc (s : Signature) (f : PixelFormat) : Signature := s.set .src f.id
def withOp (s : Signature) (op : Operator) : Signature := s.set .op op.id
def withFill (s : Signature) (k : FillKind) : Signature := s.set .fill k.id
def withFetch (s : Signature) (k : FetchKind) : Signature := s.set .fetch k.id
def withPending (s : Signature) : Signature := ⟨s.bits ||| pendingBit⟩

/-- The bits of both signatures together. -/
def union (s t : Signature) : Signature := ⟨s.bits ||| t.bits⟩

/-- The signature of five parts. -/
def ofParts (dst src : PixelFormat) (op : Operator) (fill : FillKind) (fetch : FetchKind) :
    Signature :=
  ⟨UInt32.ofNat dst.id ||| UInt32.ofNat src.id <<< 4 ||| UInt32.ofNat op.id <<< 8
    ||| UInt32.ofNat fill.id <<< 14 ||| UInt32.ofNat fetch.id <<< 17⟩

/-- The signature of a fetch kind alone. -/
def ofFetch (k : FetchKind) : Signature := (Signature.mk 0).withFetch k

/-- The formats and the operator of a simplified operator, without fill and fetch. -/
def ofSimplified (x : Simplified) : Signature := ⟨x.signatureBits⟩

/-- Whether every field holds the id of something. -/
def isValid (s : Signature) : Bool :=
  s.dst?.isSome && s.src?.isSome && s.op?.isSome && s.fill?.isSome && s.fetch?.isSome

/-- The word in hexadecimal, eight digits after `0x`. -/
def display (s : Signature) : String :=
  let digits := String.ofList (Nat.toDigits 16 s.bits.toNat)
  "0x" ++ String.ofList (List.replicate (8 - digits.length) '0') ++ digits

/-- A field as text: the label in `Some( )`, or `None` for an id without meaning. -/
def describeField (label? : Option String) : String :=
  match label? with
  | some label => s!"Some({label})"
  | none => "None"

/-- The signature as text. -/
def describe (s : Signature) : String :=
  let dst := describeField (s.dst?.map PixelFormat.label)
  let src := describeField (s.src?.map PixelFormat.label)
  let op := describeField (s.op?.map Operator.label)
  let fill := describeField (s.fill?.map FillKind.label)
  let fetch := describeField (s.fetch?.map FetchKind.label)
  let pending := if s.isPending then "true" else "false"
  s!"Signature \x7b dst: {dst}, src: {src}, comp_op: {op}, fill: {fill}, fetch: {fetch}, pending: {pending} \x7d"

end Signature

end Scanline
