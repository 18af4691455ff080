import Scanline.Pipeline.Basic

/-
  A cache of pipelines by signature. It has a fixed number of slots that are taken in turn, so the
  entry that is given up is always the one that came first.
-/

namespace Scanline

/-- A cache with `capacity` slots. -/
structure PipelineCache (capacity : Nat) where
  slots : List (Option Dispatch)
  /-- The slot that is taken next. -/
  next : Nat
  /-- How many slots are taken. -/
  size : Nat

namespace PipelineCache

variable {capacity : Nat}

def empty : PipelineCache capacity := ⟨List.replicate capacity none, 0, 0⟩

/-- Whether a slot holds a pipeline for the signature. -/
def holds (s : Signature) (slot : Option Dispatch) : Bool := slot.any (·.signature == s)

/-- The pipeline of a signature. -/
def get? (c : PipelineCache capacity) (s : Signature) : Option Dispatch :=
  (c.slots.find? (holds s)).join

def contains (c : PipelineCache capacity) (s : Signature) : Bool := (c.get? s).isSome

/-- Puts a pipeline in the place of the one with its signature, or else in the next slot. -/
def insert (c : PipelineCache capacity) (d : Dispatch) : PipelineCache capacity :=
  match c.slots.findIdx? (holds d.signature) with
  | some i => { c with slots := c.slots.set i (some d) }
  | none => ⟨c.slots.set c.next (some d), (c.next + 1) % capacity, min (c.size + 1) capacity⟩

def isEmpty (c : PipelineCache capacity) : Bool := c.size == 0

end PipelineCache

end Scanline
