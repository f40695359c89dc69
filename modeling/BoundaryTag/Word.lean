namespace BoundaryTag

abbrev Word := UInt32

namespace Word

def ofBytes (b₀ b₁ b₂ b₃ : UInt8) : Word :=
  UInt32.ofNat (b₀.toNat + 256 * b₁.toNat + 65536 * b₂.toNat + 16777216 * b₃.toNat)

def byte (word : Word) (i : Nat) : UInt8 := UInt8.ofNat (word.toNat >>> (8 * i))

theorem toNat_ofBytes (b₀ b₁ b₂ b₃ : UInt8) :
    (ofBytes b₀ b₁ b₂ b₃).toNat =
      b₀.toNat + 256 * b₁.toNat + 65536 * b₂.toNat + 16777216 * b₃.toNat := by
  have h₀ := b₀.toNat_lt
  have h₁ := b₁.toNat_lt
  have h₂ := b₂.toNat_lt
  have h₃ := b₃.toNat_lt
  rw [ofBytes, UInt32.toNat_ofNat_of_lt']
  change _ < 4294967296
  omega

@[simp] theorem ofBytes_byte (word : Word) :
    ofBytes (word.byte 0) (word.byte 1) (word.byte 2) (word.byte 3) = word := by
  have bound := word.toNat_lt
  apply UInt32.toNat_inj.1
  rw [toNat_ofBytes]
  simp only [byte, UInt8.toNat_ofNat']
  omega

end Word

end BoundaryTag
