import BoundaryTag.Tag

namespace BoundaryTag

structure Links where
  next : Option Nat
  prev : Option Nat
  deriving DecidableEq

namespace Links

def nextOffset : Nat := 0

def prevOffset : Nat := wordSize

def encode : Option Nat → Word
  | none => 0
  | some bp => UInt32.ofNat bp

def decode (word : Word) : Option Nat :=
  if word = 0 then none else some word.toNat

def text (links : Links) : String :=
  Text.record "Links" [("next", Text.ofOption links.next), ("prev", Text.ofOption links.prev)]

@[simp] theorem decode_encode_none : decode (encode none) = none := rfl

theorem decode_encode_some {bp : Nat} (positive : 0 < bp) (fits : bp < 4294967296) :
    decode (encode (some bp)) = some bp := by
  have value : (UInt32.ofNat bp).toNat = bp := UInt32.toNat_ofNat_of_lt' fits
  have nonzero : UInt32.ofNat bp ≠ 0 := by
    intro zero
    rw [zero] at value
    simp at value
    omega
  simp [decode, encode, nonzero, value]

@[simp] theorem encode_decode (word : Word) : encode (decode word) = word := by
  unfold decode
  split
  · simp_all [encode]
  · simp [encode]

end Links

end BoundaryTag
