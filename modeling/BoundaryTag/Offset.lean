namespace BoundaryTag.Offset

def limit : Nat := 18446744073709551616

def add? (a b : Nat) : Option Nat :=
  if a + b < limit then some (a + b) else none

@[simp] theorem add?_eq_some_iff {a b c : Nat} :
    add? a b = some c ↔ a + b < limit ∧ a + b = c := by
  simp [add?]

@[simp] theorem add?_eq_none_iff {a b : Nat} : add? a b = none ↔ limit ≤ a + b := by
  simp [add?]

end BoundaryTag.Offset
