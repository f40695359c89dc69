import BoundaryTag.Offset

namespace BoundaryTag

def alignment : Nat := 8

def isAligned (n : Nat) : Bool := n % alignment == 0

def alignUp (n : Nat) : Nat := (n + 7) / alignment * alignment

def alignUp? (n : Nat) : Option Nat :=
  (Offset.add? n 7).map fun padded => padded / alignment * alignment

@[simp] theorem isAligned_iff {n : Nat} : isAligned n = true ↔ n % 8 = 0 := by
  simp [isAligned, alignment]

theorem alignUp?_eq_some_iff {n a : Nat} :
    alignUp? n = some a ↔ n + 7 < Offset.limit ∧ alignUp n = a := by
  simp only [alignUp?, alignUp, Option.map_eq_some_iff, Offset.add?_eq_some_iff]
  constructor
  · rintro ⟨_, ⟨bound, rfl⟩, rounded⟩
    exact ⟨bound, rounded⟩
  · rintro ⟨bound, rounded⟩
    exact ⟨_, ⟨bound, rfl⟩, rounded⟩

theorem le_alignUp (n : Nat) : n ≤ alignUp n := by
  unfold alignUp alignment
  omega

theorem alignUp_lt (n : Nat) : alignUp n < n + 8 := by
  unfold alignUp alignment
  omega

@[simp] theorem alignUp_mod (n : Nat) : alignUp n % 8 = 0 := by
  simp [alignUp, alignment]

end BoundaryTag
